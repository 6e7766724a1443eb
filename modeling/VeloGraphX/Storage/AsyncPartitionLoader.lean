import Mathlib
import VeloGraphX.Storage.PartitionCache
import VeloGraphX.Storage.PartitionFile

/-!
# The partition loader

Files are checked against the full 64-bit partition id, but the cache in front of them is keyed by
its low 32 bits. Loads are exact as long as a cached key was last asked for by an id with the same
payload.
-/

namespace VeloGraphX

open ByteStream

namespace PartitionCache

variable {P : Type} (cache : PartitionCache P)

/-- `get` returns what the map holds and keeps the payloads. -/
theorem get_payload (id : PartitionId) :
    (cache.get id).1 = cache.entries[id]?.map CacheEntry.payload ∧
      (cache.get id).2.capacity = cache.capacity ∧
      ∀ id' : PartitionId, (cache.get id).2.entries[id']?.map CacheEntry.payload =
        cache.entries[id']?.map CacheEntry.payload := by
  unfold PartitionCache.get
  split
  · rename_i hnone
    rw [hnone]
    exact ⟨rfl, rfl, fun _ => rfl⟩
  · rename_i entry hentry
    rw [hentry]
    refine ⟨rfl, rfl, fun id' => ?_⟩
    change (cache.entries.insert id _)[id']?.map CacheEntry.payload = _
    rw [getElem?_insert]
    split
    · rename_i heq
      rw [← heq, hentry]
      rfl
    · rfl

/-- Eviction adds nothing to the map. -/
theorem entries_evictOne {id : PartitionId} {entry : CacheEntry P}
    (h : cache.evictOne.entries[id]? = some entry) : cache.entries[id]? = some entry := by
  unfold PartitionCache.evictOne at h
  split at h
  · exact h
  · dsimp only at h
    split at h
    · exact h
    · rw [getElem?_erase] at h
      split at h
      · exact absurd h.symm (Option.some_ne_none entry)
      · exact h

/-- Making room adds nothing to the map. -/
theorem entries_makeRoom (bytes turns : ℕ) {id : PartitionId} {entry : CacheEntry P}
    (h : (makeRoom bytes turns cache).entries[id]? = some entry) :
    cache.entries[id]? = some entry := by
  induction turns generalizing cache with
  | zero => exact h
  | succ turns ih =>
    rw [makeRoom] at h
    split at h
    · exact cache.entries_evictOne (ih _ h)
    · exact h

/-- Eviction keeps the capacity. -/
theorem capacity_evictOne : cache.evictOne.capacity = cache.capacity := by
  unfold PartitionCache.evictOne
  split
  · rfl
  · dsimp only
    split <;> rfl

/-- Making room keeps the capacity. -/
theorem capacity_makeRoom (bytes turns : ℕ) :
    (makeRoom bytes turns cache).capacity = cache.capacity := by
  induction turns generalizing cache with
  | zero => rfl
  | succ turns ih =>
    rw [makeRoom]
    split
    · exact (ih _).trans cache.capacity_evictOne
    · rfl

/-- Dropping an existing entry keeps the capacity. -/
theorem capacity_dropExisting (id : PartitionId) :
    (cache.dropExisting id).capacity = cache.capacity := by
  unfold PartitionCache.dropExisting
  split <;> rfl

/-- Dropping an existing entry frees its id and nothing else. -/
theorem entries_dropExisting (id id' : PartitionId) :
    (cache.dropExisting id).entries[id']? = if id = id' then none else cache.entries[id']? := by
  unfold PartitionCache.dropExisting
  split
  · exact getElem?_erase _ _ _
  · rename_i hnone
    split
    · rename_i heq
      rw [← heq, hnone]
    · rfl

/-- An item that is not too large is put, and the map holds nothing else that is new. -/
theorem put_payload (id : PartitionId) (payload : P) {bytes : ℕ} (hbytes : bytes ≤ cache.capacity) :
    (cache.put id payload bytes).1 = .ok () ∧
      (cache.put id payload bytes).2.capacity = cache.capacity ∧
      ∀ (id' : PartitionId) entry, (cache.put id payload bytes).2.entries[id']? = some entry →
        id' = id ∧ entry.payload = payload ∨ id' ≠ id ∧ cache.entries[id']? = some entry := by
  unfold PartitionCache.put
  rw [if_neg (not_lt.mpr hbytes)]
  dsimp only
  have hothers := cache.entries_dropExisting id
  have hdropped := cache.capacity_dropExisting id
  generalize cache.dropExisting id = dropped at hothers hdropped ⊢
  have hcapacity := (dropped.capacity_makeRoom bytes dropped.lru.nodes.length).trans hdropped
  have hroom : ∀ (id' : PartitionId) entry,
      (makeRoom bytes dropped.lru.nodes.length dropped).entries[id']? = some entry →
        id' ≠ id ∧ cache.entries[id']? = some entry := by
    intro id' entry hentry
    have hkept := dropped.entries_makeRoom bytes _ hentry
    rw [hothers] at hkept
    split at hkept
    · exact absurd hkept.symm (Option.some_ne_none entry)
    · rename_i hne
      exact ⟨Ne.symm hne, hkept⟩
  generalize makeRoom bytes dropped.lru.nodes.length dropped = room at hroom hcapacity ⊢
  have hfree : room.entries[id]? = none := by
    cases hentry : room.entries[id]? with
    | none => rfl
    | some entry => exact absurd rfl (hroom id entry hentry).1
  refine ⟨rfl, hcapacity, fun id' entry hentry => ?_⟩
  change (room.entries.insertIfNew id _)[id']? = some entry at hentry
  rw [getElem?_insertIfNew hfree] at hentry
  split at hentry
  · rename_i heq
    rw [← Option.some.inj hentry]
    exact Or.inl ⟨heq.symm, rfl⟩
  · exact Or.inr (hroom id' entry hentry)

end PartitionCache

/-- `AsyncPartitionLoader`. -/
structure AsyncPartitionLoader where
  cache : PartitionCache (List UInt8)

namespace AsyncPartitionLoader

/-- `static_cast<PartitionId>` of a 64-bit partition id. -/
def cacheKey (partitionId : UInt64) : PartitionId := Fin.ofNat (2 ^ 32) partitionId.toNat

section

variable {Path : Type} (order : ByteOrder) (files : Path → Option (List UInt8))

/-- `load`; `mapped` tells whether the system maps the file. -/
def load (loader : AsyncPartitionLoader) (mapped : Bool) (partitionId : UInt64) (path : Path) :
    Except Exception (List UInt8) × AsyncPartitionLoader :=
  match loader.cache.get (cacheKey partitionId) with
  | (some cached, cache) => (.ok cached, ⟨cache⟩)
  | (none, cache) =>
    match PartitionFile.readMmapOrFallback order mapped (files path) partitionId with
    | .error exception => (.error exception, ⟨cache⟩)
    | .ok payload =>
      match cache.put (cacheKey partitionId) payload payload.length with
      | (.error exception, cache) => (.error exception, ⟨cache⟩)
      | (.ok (), cache) => (.ok payload, ⟨cache⟩)

/-- A sequence of loads: what they return. -/
def loadAll (path : UInt64 → Path) : AsyncPartitionLoader → List (UInt64 × Bool) →
    List (Except Exception (List UInt8))
  | _, [] => []
  | loader, (id, mapped) :: rest =>
    let (result, loader) := load order files loader mapped id (path id)
    result :: loadAll path loader rest

/-- Whenever the key of a requested id is cached, the last request with the same key was for an id
with the same payload. -/
def Distinguished (path : UInt64 → Path) (payload : UInt64 → List UInt8) :
    (PartitionId → Option UInt64) → AsyncPartitionLoader → List (UInt64 × Bool) → Prop
  | _, _, [] => True
  | last, loader, (id, mapped) :: rest =>
    (loader.cache.contains (cacheKey id) = true →
        ∀ previous, last (cacheKey id) = some previous → payload previous = payload id) ∧
      Distinguished path payload (Function.update last (cacheKey id) (some id))
        (load order files loader mapped id (path id)).2 rest

end

variable {Path : Type} {order : ByteOrder} {files : Path → Option (List UInt8)}
  {path : UInt64 → Path} {payload : UInt64 → List UInt8} {loader : AsyncPartitionLoader}
  {last : PartitionId → Option UInt64}

/-- Every cached payload is that of the last id that was asked for with its key. -/
def Current (payload : UInt64 → List UInt8) (last : PartitionId → Option UInt64)
    (loader : AsyncPartitionLoader) : Prop :=
  ∀ key entry, loader.cache.entries[key]? = some entry →
    ∃ id, last key = some id ∧ entry.payload = payload id

/-- A hit returns what is cached. -/
theorem load_of_cached {id : UInt64} (mapped : Bool) {entry : CacheEntry (List UInt8)}
    (hentry : loader.cache.entries[cacheKey id]? = some entry) :
    load order files loader mapped id (path id) =
      (.ok entry.payload, ⟨(loader.cache.get (cacheKey id)).2⟩) := by
  have hget := (loader.cache.get_payload (cacheKey id)).1
  rw [hentry, Option.map_some] at hget
  unfold load
  rw [← Prod.mk.eta (p := loader.cache.get (cacheKey id)), hget]

/-- A miss reads the file and caches its payload. -/
theorem load_of_missing {id : UInt64} (mapped : Bool)
    (hentry : loader.cache.entries[cacheKey id]? = none)
    (hfile : files (path id) = some (PartitionFile.write order id (payload id)))
    (hlength : (payload id).length < 2 ^ 63) (hfits : (payload id).length ≤ loader.cache.capacity) :
    load order files loader mapped id (path id) = (.ok (payload id),
      ⟨((loader.cache.get (cacheKey id)).2.put (cacheKey id) (payload id) (payload id).length).2⟩) := by
  obtain ⟨hget, hcapacity, -⟩ := loader.cache.get_payload (cacheKey id)
  rw [hentry, Option.map_none] at hget
  have hread := @PartitionFile.readMmapOrFallback_write order mapped id (payload id) hlength
  have hput := ((loader.cache.get (cacheKey id)).2.put_payload (cacheKey id) (payload id)
    (hfits.trans hcapacity.ge)).1
  unfold load
  rw [← Prod.mk.eta (p := loader.cache.get (cacheKey id)), hget]
  dsimp only
  rw [hfile, hread]
  dsimp only
  rw [← Prod.mk.eta (p := PartitionCache.put _ _ _ _), hput]

/-- One load: a cached key answers for the last id with that key, and any other key is read from
the file of the requested id. -/
theorem Current.load (h : Current payload last loader) {id : UInt64} (mapped : Bool)
    (hfile : files (path id) = some (PartitionFile.write order id (payload id)))
    (hlength : (payload id).length < 2 ^ 63) (hfits : (payload id).length ≤ loader.cache.capacity) :
    ((load order files loader mapped id (path id)).1 = .ok (payload id) ↔
        (loader.cache.contains (cacheKey id) = true →
          ∀ previous, last (cacheKey id) = some previous → payload previous = payload id)) ∧
      (load order files loader mapped id (path id)).2.cache.capacity = loader.cache.capacity ∧
      ((load order files loader mapped id (path id)).1 = .ok (payload id) →
        Current payload (Function.update last (cacheKey id) (some id))
          (load order files loader mapped id (path id)).2) := by
  obtain ⟨-, hcapacity, hpayload⟩ := loader.cache.get_payload (cacheKey id)
  have hkept : ∀ (key : PartitionId) entry, (loader.cache.get (cacheKey id)).2.entries[key]? = some entry →
      ∃ entry', loader.cache.entries[key]? = some entry' ∧ entry'.payload = entry.payload := by
    intro key entry hentry
    have hsame := hpayload key
    rw [hentry] at hsame
    exact Option.map_eq_some_iff.mp hsame.symm
  have hcontains : loader.cache.contains (cacheKey id) =
      loader.cache.entries[cacheKey id]?.isSome := Std.TreeMap.contains_eq_isSome_getElem?
  cases hentry : loader.cache.entries[cacheKey id]? with
  | some entry =>
    obtain ⟨previous, hlast, hcached⟩ := h _ _ hentry
    rw [load_of_cached mapped hentry, hcontains, hentry, hlast]
    refine ⟨⟨fun hok _ previous' heq => ?_, fun hsame => ?_⟩, hcapacity, fun hok key entry' hkey => ?_⟩
    · rw [← Option.some.inj heq, ← hcached]
      exact Except.ok.inj hok
    · exact congrArg Except.ok (hcached.trans (hsame rfl previous rfl))
    · obtain ⟨entry'', hentry'', hsame⟩ := hkept key entry' hkey
      by_cases heq : key = cacheKey id
      · subst heq
        rw [hentry] at hentry''
        refine ⟨id, Function.update_self _ _ _, hsame.symm.trans ?_⟩
        rw [← Option.some.inj hentry'']
        exact Except.ok.inj hok
      · rw [Function.update_of_ne heq, ← hsame]
        exact h key entry'' hentry''
  | none =>
    obtain ⟨-, hkeeps, hput⟩ := (loader.cache.get (cacheKey id)).2.put_payload (cacheKey id)
      (payload id) (hfits.trans hcapacity.ge)
    rw [load_of_missing mapped hentry hfile hlength hfits, hcontains, hentry]
    refine ⟨iff_of_true rfl fun habsurd => absurd habsurd Bool.false_ne_true,
      hkeeps.trans hcapacity, fun _ key entry hkey => ?_⟩
    rcases hput key entry hkey with ⟨rfl, hpayload⟩ | ⟨hne, hold⟩
    · exact ⟨id, Function.update_self _ _ _, hpayload⟩
    · obtain ⟨entry', hentry', hsame⟩ := hkept key entry hold
      rw [Function.update_of_ne hne, ← hsame]
      exact h key entry' hentry'

/-- Loads return the payloads of their ids exactly when the keys are distinguished in every step. -/
theorem Current.loadAll_iff (h : Current payload last loader) (requests : List (UInt64 × Bool))
    (hfiles : ∀ request ∈ requests, files (path request.1) =
      some (PartitionFile.write order request.1 (payload request.1)))
    (hlengths : ∀ request ∈ requests, (payload request.1).length < 2 ^ 63)
    (hfits : ∀ request ∈ requests, (payload request.1).length ≤ loader.cache.capacity) :
    loadAll order files path loader requests =
        requests.map (fun request => .ok (payload request.1)) ↔
      Distinguished order files path payload last loader requests := by
  induction requests generalizing last loader with
  | nil => exact iff_of_true rfl trivial
  | cons request rest ih =>
    obtain ⟨id, mapped⟩ := request
    obtain ⟨hiff, hcapacity, hcurrent⟩ := h.load mapped (hfiles _ List.mem_cons_self)
      (hlengths _ List.mem_cons_self) (hfits _ List.mem_cons_self)
    rw [loadAll, Distinguished, List.map_cons, List.cons.injEq, ← hiff]
    refine and_congr_right fun hok => ih (hcurrent hok) ?_ ?_ ?_
    · exact fun request hmem => hfiles request (List.mem_cons_of_mem _ hmem)
    · exact fun request hmem => hlengths request (List.mem_cons_of_mem _ hmem)
    · exact fun request hmem => (hfits request (List.mem_cons_of_mem _ hmem)).trans hcapacity.ge

/-- On a new loader, every load of a sequence returns the payload of its id exactly when, in every
step, a cached key was last asked for by an id with the same payload. -/
theorem loads_exact_iff (capacity : ℕ) (requests : List (UInt64 × Bool))
    (hfiles : ∀ request ∈ requests, files (path request.1) =
      some (PartitionFile.write order request.1 (payload request.1)))
    (hlengths : ∀ request ∈ requests, (payload request.1).length < 2 ^ 63)
    (hfits : ∀ request ∈ requests, (payload request.1).length ≤ capacity) :
    loadAll order files path ⟨{ capacity := capacity }⟩ requests =
        requests.map (fun request => .ok (payload request.1)) ↔
      Distinguished order files path payload (fun _ => none) ⟨{ capacity := capacity }⟩ requests := by
  have hnew : Current payload (fun _ => none) ⟨{ capacity := capacity }⟩ := by
    intro key entry hentry
    rw [Std.TreeMap.getElem?_emptyc] at hentry
    exact absurd hentry.symm (Option.some_ne_none entry)
  exact hnew.loadAll_iff requests hfiles hlengths hfits

/-- One partition is loaded twice: the key is cached, for the same id. -/
theorem loads_exact_twice :
    loadAll .little (fun id : UInt64 => some (PartitionFile.write .little id [7])) id
      ⟨{ capacity := 8 }⟩ [(3, false), (3, true)] = [.ok [7], .ok [7]] :=
  (@loads_exact_iff UInt64 .little (fun id => some (PartitionFile.write .little id [7])) id
    (fun _ => [7]) 8 [(3, false), (3, true)] (fun _ _ => rfl) (fun _ _ => by decide)
    (fun _ _ => by decide)).mpr ⟨fun _ _ _ => rfl, fun _ _ _ => rfl, trivial⟩

/-- Partition `2 ^ 32` is answered with the cached payload of partition `0`. -/
theorem not_loads_exact :
    ¬ ∀ (capacity : ℕ) (payload : UInt64 → List UInt8) (requests : List (UInt64 × Bool)),
      (∀ request ∈ requests, (payload request.1).length ≤ capacity) →
        loadAll .little (fun id : UInt64 => some (PartitionFile.write .little id (payload id))) id
            ⟨{ capacity := capacity }⟩ requests =
          requests.map (fun request => .ok (payload request.1)) := by
  intro hloads
  have h := hloads 8 (fun id => if id = 0 then [1] else [2]) [(0, false), (4294967296, false)]
    (fun _ _ => by split <;> decide)
  exact absurd h (by decide +kernel)

end AsyncPartitionLoader

end VeloGraphX
