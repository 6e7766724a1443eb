import Mathlib
import VeloGraphX.Storage.AsyncPartitionLoader

/-!
# What a loader keeps resident

Of all partitions that were ever asked for, in the order of their last use, a loader keeps the
longest prefix that fits into its budget. Both a hit and a miss keep it that way, so a larger budget
holds whatever a smaller one holds, at every moment, and never misses or evicts more often.
-/

namespace VeloGraphX

open RecencyList ByteStream

namespace PartitionCache

variable {P : Type} {cache : PartitionCache P} {items : List (RecencyList.Item PartitionId P)}

/-- `get` counts a hit or a miss, and nothing else. -/
theorem stats_get (cache : PartitionCache P) (id : PartitionId) :
    (cache.get id).2.stats.hits =
        (if cache.contains id then addU64 cache.stats.hits 1 else cache.stats.hits) ∧
      (cache.get id).2.stats.misses =
        (if cache.contains id then cache.stats.misses else addU64 cache.stats.misses 1) ∧
      (cache.get id).2.stats.evictions = cache.stats.evictions := by
  rw [contains, Std.TreeMap.contains_eq_isSome_getElem?]
  unfold PartitionCache.get
  cases hentry : cache.entries[id]? with
  | none => exact ⟨rfl, rfl, rfl⟩
  | some entry => exact ⟨rfl, rfl, rfl⟩

/-- A resident id is the key of an item. -/
theorem Refines.contains_iff (h : Refines cache items) (id : PartitionId) :
    cache.contains id = true ↔ id ∈ keys items := by
  rw [contains, Std.TreeMap.contains_eq_isSome_getElem?]
  cases hentry : cache.entries[id]? with
  | none =>
    exact iff_of_false Bool.false_ne_true (RecencyList.find_eq_none.mp (h.find_eq_none hentry))
  | some entry =>
    exact iff_of_true rfl (List.mem_map_of_mem (f := RecencyList.Item.key)
      (mem_of_find (h.find_eq hentry)))

/-- The counters of a cache whose list, map and byte counter change. -/
theorem stats_update (cache : PartitionCache P) (lru : LruList)
    (entries : Std.TreeMap PartitionId (CacheEntry P)) (residentBytes evictions : ℕ) :
    let after : PartitionCache P := { cache with
      lru := lru
      entries := entries
      stats := { cache.stats with residentBytes := residentBytes, evictions := evictions } }
    after.stats.hits = cache.stats.hits ∧ after.stats.misses = cache.stats.misses ∧
      after.stats.evictions = evictions := ⟨rfl, rfl, rfl⟩

/-- Evicting the last item counts one eviction. -/
theorem Refines.stats_evictOne {init : List (RecencyList.Item PartitionId P)}
    {last : RecencyList.Item PartitionId P} (h : Refines cache (init ++ [last])) :
    cache.evictOne.stats.hits = cache.stats.hits ∧
      cache.evictOne.stats.misses = cache.stats.misses ∧
      cache.evictOne.stats.evictions = addU64 cache.stats.evictions 1 := by
  have hback : cache.lru.nodes.getLast?.map Prod.snd = some last.key := by
    rw [← List.getLast?_map]
    change cache.lru.ids.getLast? = _
    rw [h.ids, keys, List.map_append, List.map_singleton, List.getLast?_concat]
  obtain ⟨⟨node, victim⟩, hlast, hvictim⟩ := Option.map_eq_some_iff.mp hback
  obtain rfl : victim = last.key := hvictim
  have hentry := h.entries last.key
  rw [find_of_mem h.nodup (List.mem_append_right _ List.mem_cons_self)] at hentry
  obtain ⟨entry, hentry, -⟩ := Option.map_eq_some_iff.mp hentry
  have hevict : cache.evictOne = { cache with
      lru := cache.lru.popBack
      entries := cache.entries.erase last.key
      stats := { cache.stats with
        residentBytes := subU64 cache.stats.residentBytes entry.bytes
        evictions := addU64 cache.stats.evictions 1 } } := by
    unfold PartitionCache.evictOne
    rw [hlast]
    dsimp only
    rw [hentry]
  rw [hevict]
  exact stats_update cache _ _ _ _

/-- Making room counts what it evicts. -/
theorem Refines.stats_makeRoom (h : Refines cache items) (hcap : cache.capacity < 2 ^ 63)
    {bytes : ℕ} (hbytes : bytes ≤ cache.capacity)
    (hcount : cache.stats.evictions + items.length < 2 ^ 64) :
    let room := PartitionCache.makeRoom bytes items.length cache
    room.stats.hits = cache.stats.hits ∧ room.stats.misses = cache.stats.misses ∧
      room.stats.evictions + (fit (cache.capacity - bytes) items).length =
        cache.stats.evictions + items.length := by
  induction items using List.reverseRecOn generalizing cache with
  | nil => exact ⟨rfl, rfl, rfl⟩
  | append_singleton init last ih =>
    have hsum : addU64 cache.stats.residentBytes bytes = total (init ++ [last]) + bytes := by
      have hbounded := h.bounded
      rw [h.resident, addU64, Nat.mod_eq_of_lt (by omega)]
    have hnonempty : cache.lru.nodes ≠ [] := fun hnil => by
      have hids := h.ids
      rw [LruList.ids, hnil, keys, List.map_append] at hids
      exact absurd hids.symm (by simp)
    rw [List.length_append, List.length_singleton] at hcount ⊢
    rw [PartitionCache.makeRoom, hsum]
    by_cases hfull : cache.capacity < total (init ++ [last]) + bytes
    · obtain ⟨hevicted, hcapacity⟩ := h.evictOne (by omega)
      obtain ⟨hhits, hmisses, hevictions⟩ := h.stats_evictOne
      rw [addU64, Nat.mod_eq_of_lt (by omega)] at hevictions
      rw [if_pos ⟨hfull, hnonempty⟩, fit_append_singleton (by omega), ← hcapacity]
      obtain ⟨hhits', hmisses', hevictions'⟩ := ih hevicted (by omega) (by omega) (by omega)
      exact ⟨hhits'.trans hhits, hmisses'.trans hmisses, by omega⟩
    · rw [if_neg fun hloop => hfull hloop.1, fit_of_total_le (by omega), List.length_append,
        List.length_singleton]
      exact ⟨rfl, rfl, rfl⟩

/-- Putting a new item counts what makes room for it. -/
theorem Refines.stats_put (h : Refines cache items) (hcap : cache.capacity < 2 ^ 63)
    {id : PartitionId} (hnew : id ∉ keys items) (payload : P) {bytes : ℕ}
    (hbytes : bytes ≤ cache.capacity) (hcount : cache.stats.evictions + items.length < 2 ^ 64) :
    let after := (cache.put id payload bytes).2
    after.stats.hits = cache.stats.hits ∧ after.stats.misses = cache.stats.misses ∧
      after.stats.evictions + (fit (cache.capacity - bytes) items).length =
        cache.stats.evictions + items.length := by
  have hentry : cache.entries[id]? = none := by
    have hentries := h.entries id
    rw [RecencyList.find_eq_none.mpr hnew] at hentries
    exact Option.map_eq_none_iff.mp hentries
  have hturns : cache.lru.nodes.length = items.length := by
    have hids := congrArg List.length h.ids
    rwa [LruList.ids, keys, List.length_map, List.length_map] at hids
  dsimp only
  rw [PartitionCache.put, if_neg (not_lt.mpr hbytes)]
  dsimp only
  rw [PartitionCache.dropExisting, hentry]
  dsimp only
  rw [hturns]
  obtain ⟨hhits, hmisses, hevictions⟩ := h.stats_makeRoom hcap hbytes hcount
  obtain ⟨hhits', hmisses', hevictions'⟩ := stats_update
    (PartitionCache.makeRoom bytes items.length cache) _ _ _ _
  exact ⟨hhits'.trans hhits, hmisses'.trans hmisses, hevictions' ▸ hevictions⟩

end PartitionCache

namespace AsyncPartitionLoader

variable {Path : Type} {order : ByteOrder} {files : Path → Option (List UInt8)}
  {path : UInt64 → Path} {payload : UInt64 → List UInt8} {loader : AsyncPartitionLoader}
  {capacity loads : ℕ}

/-- The loader after a sequence of loads. -/
def afterLoads (order : ByteOrder) (files : Path → Option (List UInt8)) (path : UInt64 → Path)
    (loader : AsyncPartitionLoader) (requests : List (UInt64 × Bool)) : AsyncPartitionLoader :=
  requests.foldl (fun loader request =>
    (load order files loader request.2 request.1 (path request.1)).2) loader

/-- A partition as the cache holds it. -/
def itemOf (payload : UInt64 → List UInt8) (id : UInt64) :
    RecencyList.Item PartitionId (List UInt8) := ⟨cacheKey id, payload id, (payload id).length⟩

/-- All partitions that were asked for, in the order of their last use. -/
def asked (payload : UInt64 → List UInt8) (requests : List (UInt64 × Bool)) :
    List (RecencyList.Item PartitionId (List UInt8)) :=
  requests.foldl (fun items request => RecencyList.request (itemOf payload request.1) items) []

/-- One more load. -/
theorem afterLoads_append (loader : AsyncPartitionLoader) (requests : List (UInt64 × Bool))
    (request : UInt64 × Bool) : afterLoads order files path loader (requests ++ [request]) =
      (load order files (afterLoads order files path loader requests) request.2 request.1
        (path request.1)).2 := by
  rw [afterLoads, List.foldl_append, List.foldl_cons, List.foldl_nil]
  rfl

/-- One more request. -/
theorem asked_append (payload : UInt64 → List UInt8) (requests : List (UInt64 × Bool))
    (request : UInt64 × Bool) : asked payload (requests ++ [request]) =
      RecencyList.request (itemOf payload request.1) (asked payload requests) := by
  rw [asked, List.foldl_append, List.foldl_cons, List.foldl_nil]
  rfl

/-- Partitions that were asked for have distinct keys, and each is one of the requests. -/
theorem asked_spec (payload : UInt64 → List UInt8) (requests : List (UInt64 × Bool)) :
    (keys (asked payload requests)).Nodup ∧
      ∀ item ∈ asked payload requests, ∃ request ∈ requests, item = itemOf payload request.1 := by
  induction requests using List.reverseRecOn with
  | nil => exact ⟨List.nodup_nil, fun item hitem => absurd hitem List.not_mem_nil⟩
  | append_singleton requests request ih =>
    rw [asked_append]
    refine ⟨nodup_request ih.1 _, fun item hitem => ?_⟩
    rcases List.mem_cons.mp hitem with rfl | hitem
    · exact ⟨request, List.mem_append_right _ List.mem_cons_self, rfl⟩
    · obtain ⟨request', hrequest', heq⟩ := ih.2 item (mem_remove.mp hitem).1
      exact ⟨request', List.mem_append_left _ hrequest', heq⟩

/-- A loader that holds what fits of the partitions asked for, and whose counters say so. -/
structure Resident (capacity : ℕ) (items : List (RecencyList.Item PartitionId (List UInt8)))
    (loads : ℕ) (loader : AsyncPartitionLoader) : Prop where
  budget : loader.cache.capacity = capacity
  refines : PartitionCache.Refines loader.cache (fit capacity items)
  counted : loader.cache.stats.hits + loader.cache.stats.misses = loads
  evicted : loader.cache.stats.evictions + (fit capacity items).length = loader.cache.stats.misses

/-- A new loader. -/
theorem resident_new (capacity : ℕ) : Resident capacity [] 0 ⟨{ capacity := capacity }⟩ :=
  ⟨rfl, PartitionCache.refines_empty capacity, rfl, rfl⟩

variable {items : List (RecencyList.Item PartitionId (List UInt8))} {partitionId : UInt64}

/-- A hit. -/
theorem Resident.load_hit (h : Resident capacity items loads loader) (hcap : capacity < 2 ^ 63)
    (hloads : loads + 1 < 2 ^ 64) (hnodup : (keys items).Nodup)
    (hmem : itemOf payload partitionId ∈ fit capacity items) (mapped : Bool) :
    let loaded := load order files loader mapped partitionId (path partitionId)
    Resident capacity (RecencyList.request (itemOf payload partitionId) items) (loads + 1) loaded.2 ∧
      loaded.2.cache.stats.hits = loader.cache.stats.hits + 1 := by
  have hkey : cacheKey partitionId ∈ keys (fit capacity items) :=
    List.mem_map_of_mem (f := RecencyList.Item.key) hmem
  have hcontains := (h.refines.contains_iff (cacheKey partitionId)).mpr hkey
  obtain ⟨entry, hentry⟩ : ∃ entry, loader.cache.entries[cacheKey partitionId]? = some entry := by
    rw [PartitionCache.contains, Std.TreeMap.contains_eq_isSome_getElem?] at hcontains
    exact Option.isSome_iff_exists.mp hcontains
  have hcapacity := h.budget
  obtain ⟨-, hrefines, hkept⟩ := h.refines.get (by omega) (cacheKey partitionId)
  obtain ⟨hhits, hmisses, hevictions⟩ := PartitionCache.stats_get loader.cache (cacheKey partitionId)
  have hcounted := h.counted
  have hevicted := h.evicted
  rw [hcontains] at hhits hmisses
  rw [if_pos rfl, addU64, Nat.mod_eq_of_lt (by omega)] at hhits
  rw [if_pos rfl] at hmisses
  have htouch := touch_fit hnodup hmem
  have hlength : (fit capacity (RecencyList.request (itemOf payload partitionId) items)).length =
      (fit capacity items).length := by
    rw [← htouch, RecencyList.touch, find_of_mem h.refines.nodup hmem, List.length_cons]
    exact length_remove h.refines.nodup hkey
  rw [load_of_cached mapped hentry]
  dsimp only
  generalize (loader.cache.get (cacheKey partitionId)).2 = cache at hrefines hkept hhits hmisses hevictions ⊢
  refine ⟨⟨hkept.trans hcapacity, htouch ▸ hrefines, ?_, ?_⟩, hhits⟩
  · dsimp only
    omega
  · dsimp only
    omega

/-- A miss. -/
theorem Resident.load_miss (h : Resident capacity items loads loader) (hcap : capacity < 2 ^ 63)
    (hloads : loads + 1 < 2 ^ 64)
    (hsame : ∀ other ∈ items, other.key = cacheKey partitionId → other = itemOf payload partitionId)
    (hnot : cacheKey partitionId ∉ keys (fit capacity items))
    (hfile : files (path partitionId) = some (PartitionFile.write order partitionId (payload partitionId)))
    (hfits : (payload partitionId).length ≤ capacity) (mapped : Bool) :
    let loaded := load order files loader mapped partitionId (path partitionId)
    Resident capacity (RecencyList.request (itemOf payload partitionId) items) (loads + 1) loaded.2 ∧
      loaded.2.cache.stats.hits = loader.cache.stats.hits := by
  have hcontains : loader.cache.contains (cacheKey partitionId) = false :=
    Bool.eq_false_iff.mpr fun hcontains => hnot ((h.refines.contains_iff _).mp hcontains)
  have hentry : loader.cache.entries[cacheKey partitionId]? = none := by
    rw [PartitionCache.contains, Std.TreeMap.contains_eq_isSome_getElem?] at hcontains
    exact Option.not_isSome_iff_eq_none.mp (Bool.eq_false_iff.mp hcontains)
  have hcapacity := h.budget
  obtain ⟨-, hget, hkept⟩ := h.refines.get (by omega) (cacheKey partitionId)
  have htouch : RecencyList.touch (cacheKey partitionId) (fit capacity items) = fit capacity items := by
    rw [RecencyList.touch, RecencyList.find_eq_none.mpr hnot]
  rw [htouch] at hget
  obtain ⟨hhits, hmisses, hevictions⟩ := PartitionCache.stats_get loader.cache (cacheKey partitionId)
  have hcounted := h.counted
  have hevicted := h.evicted
  rw [hcontains, if_neg Bool.false_ne_true] at hhits hmisses
  rw [addU64, Nat.mod_eq_of_lt (by omega)] at hmisses
  have hcapacity' := hkept.trans hcapacity
  obtain ⟨-, hput, hkept'⟩ := hget.put (by omega) (cacheKey partitionId) (payload partitionId)
    (hfits.trans_eq hcapacity'.symm)
  obtain ⟨hhits', hmisses', hevictions'⟩ := hget.stats_put (by omega) hnot (payload partitionId)
    (hfits.trans_eq hcapacity'.symm) (by omega)
  have hinsert : RecencyList.insert capacity (itemOf payload partitionId) (fit capacity items) =
      fit capacity (RecencyList.request (itemOf payload partitionId) items) :=
    insert_fit (fun other hother hkey => congrArg RecencyList.Item.bytes (hsame other hother hkey))
      hnot hfits
  have hlength : (fit capacity (RecencyList.request (itemOf payload partitionId) items)).length =
      (fit (capacity - (payload partitionId).length) (fit capacity items)).length + 1 := by
    rw [← hinsert, RecencyList.insert, List.length_cons,
      show (itemOf payload partitionId).key = cacheKey partitionId from rfl, remove_of_notMem hnot]
    rfl
  rw [load_of_missing mapped hentry hfile (by omega) (hfits.trans_eq hcapacity.symm)]
  rw [hcapacity'] at hput hevictions'
  dsimp only
  generalize ((loader.cache.get (cacheKey partitionId)).2.put (cacheKey partitionId)
    (payload partitionId) (payload partitionId).length).2 = cache at hput hkept' hhits' hmisses' hevictions' ⊢
  refine ⟨⟨hkept'.trans hcapacity', hinsert ▸ hput, ?_, ?_⟩, hhits'.trans hhits⟩
  · dsimp only
    omega
  · dsimp only
    omega

/-- One load of a partition that fits. -/
theorem Resident.load (h : Resident capacity items loads loader) (hcap : capacity < 2 ^ 63)
    (hloads : loads + 1 < 2 ^ 64) (hnodup : (keys items).Nodup)
    (hsame : ∀ other ∈ items, other.key = cacheKey partitionId → other = itemOf payload partitionId)
    (hfile : files (path partitionId) = some (PartitionFile.write order partitionId (payload partitionId)))
    (hfits : (payload partitionId).length ≤ capacity) (mapped : Bool) :
    let loaded := load order files loader mapped partitionId (path partitionId)
    Resident capacity (RecencyList.request (itemOf payload partitionId) items) (loads + 1) loaded.2 ∧
      loaded.2.cache.stats.hits = loader.cache.stats.hits +
        if cacheKey partitionId ∈ keys (fit capacity items) then 1 else 0 := by
  by_cases hkey : cacheKey partitionId ∈ keys (fit capacity items)
  · rw [if_pos hkey]
    obtain ⟨item, hitem, heq⟩ := List.mem_map.mp hkey
    have hmem := hsame item ((fit_isPrefix _ _).subset hitem) heq ▸ hitem
    exact h.load_hit hcap hloads hnodup hmem mapped
  · rw [if_neg hkey]
    exact h.load_miss hcap hloads hsame hkey hfile hfits mapped

/-- The files hold the payloads of the requested partitions, and partitions that share a cache key
share the payload. -/
structure Requested (order : ByteOrder) (files : Path → Option (List UInt8)) (path : UInt64 → Path)
    (payload : UInt64 → List UInt8) (requests : List (UInt64 × Bool)) : Prop where
  written : ∀ request ∈ requests,
    files (path request.1) = some (PartitionFile.write order request.1 (payload request.1))
  keyed : ∀ request ∈ requests, ∀ request' ∈ requests,
    cacheKey request.1 = cacheKey request'.1 → payload request.1 = payload request'.1
  count_lt : requests.length < 2 ^ 64

/-- Any budget that each payload fits into serves the requests alike, and a larger one has at least
the hits of a smaller one. -/
theorem Requested.resident {capacity' : ℕ} {requests : List (UInt64 × Bool)}
    (h : Requested order files path payload requests) (hle : capacity ≤ capacity')
    (hcap : capacity' < 2 ^ 63)
    (hfits : ∀ request ∈ requests, (payload request.1).length ≤ capacity) :
    let small := afterLoads order files path ⟨{ capacity := capacity }⟩ requests
    let large := afterLoads order files path ⟨{ capacity := capacity' }⟩ requests
    Resident capacity (asked payload requests) requests.length small ∧
      Resident capacity' (asked payload requests) requests.length large ∧
      small.cache.stats.hits ≤ large.cache.stats.hits := by
  induction requests using List.reverseRecOn with
  | nil => exact ⟨resident_new capacity, resident_new capacity', le_rfl⟩
  | append_singleton requests request ih =>
    have hcount := h.count_lt
    rw [List.length_append, List.length_singleton] at hcount
    obtain ⟨hsmall, hlarge, hhits⟩ := ih
      ⟨fun r hr => h.written r (List.mem_append_left _ hr), fun r hr r' hr' =>
        h.keyed r (List.mem_append_left _ hr) r' (List.mem_append_left _ hr'), by omega⟩
      fun r hr => hfits r (List.mem_append_left _ hr)
    have hlast : request ∈ requests ++ [request] := List.mem_append_right _ List.mem_cons_self
    obtain ⟨hnodup, hitems⟩ := asked_spec payload requests
    have hsame : ∀ other ∈ asked payload requests, other.key = cacheKey request.1 →
        other = itemOf payload request.1 := fun other hother hkey => by
      obtain ⟨request', hrequest', rfl⟩ := hitems other hother
      have hpayload := h.keyed request' (List.mem_append_left _ hrequest') request hlast hkey
      rw [itemOf, itemOf, hpayload, show cacheKey request'.1 = cacheKey request.1 from hkey]
    obtain ⟨hsmall', hcounted⟩ := hsmall.load (by omega) hcount hnodup hsame (h.written _ hlast)
      (hfits _ hlast) request.2
    obtain ⟨hlarge', hcounted'⟩ := hlarge.load hcap hcount hnodup hsame (h.written _ hlast)
      ((hfits _ hlast).trans hle) request.2
    have hinside : cacheKey request.1 ∈ keys (fit capacity (asked payload requests)) →
        cacheKey request.1 ∈ keys (fit capacity' (asked payload requests)) := fun hkey =>
      ((fit_isPrefix_fit hle _).map RecencyList.Item.key).subset hkey
    rw [List.length_append, List.length_singleton, asked_append, afterLoads_append,
      afterLoads_append]
    refine ⟨hsmall', hlarge', ?_⟩
    rw [hcounted, hcounted']
    split
    · rename_i hkey
      rw [if_pos (hinside hkey)]
      omega
    · omega

/-- After any sequence of loads the resident partitions are, in the order of their last use, the
longest prefix of all that were asked for that fits; so a larger budget holds whatever a smaller one
holds, and has at least its hits and at most its misses and evictions. -/
theorem larger_budget {capacity' : ℕ} {requests : List (UInt64 × Bool)}
    (h : Requested order files path payload requests) (hle : capacity ≤ capacity')
    (hcap : capacity' < 2 ^ 63)
    (hfits : ∀ request ∈ requests, (payload request.1).length ≤ capacity) :
    let small := (afterLoads order files path ⟨{ capacity := capacity }⟩ requests).cache
    let large := (afterLoads order files path ⟨{ capacity := capacity' }⟩ requests).cache
    (small.lru.ids = keys (fit capacity (asked payload requests)) ∧
        large.lru.ids = keys (fit capacity' (asked payload requests))) ∧
      (∀ key, small.contains key = true → large.contains key = true) ∧
      (small.stats.hits + small.stats.misses = requests.length ∧
        small.stats.misses = small.stats.evictions + small.lru.ids.length) ∧
      small.stats.hits ≤ large.stats.hits ∧ large.stats.misses ≤ small.stats.misses ∧
      large.stats.evictions ≤ small.stats.evictions := by
  obtain ⟨hsmall, hlarge, hhits⟩ := h.resident hle hcap hfits
  have hinitial := fit_isPrefix_fit hle (asked payload requests)
  have hids := hsmall.refines.ids
  have hkeys : (keys (fit capacity (asked payload requests))).length =
      (fit capacity (asked payload requests)).length := List.length_map _
  have hcounted := hsmall.counted
  have hcounted' := hlarge.counted
  have hevicted := hsmall.evicted
  have hevicted' := hlarge.evicted
  have hlength := hinitial.length_le
  dsimp only
  refine ⟨⟨hids, hlarge.refines.ids⟩, fun key hkey => ?_, ⟨hcounted, ?_⟩, hhits, by omega, by omega⟩
  · rw [hlarge.refines.contains_iff]
    exact (hinitial.map RecencyList.Item.key).subset ((hsmall.refines.contains_iff key).mp hkey)
  · rw [hids, hkeys]
    exact hevicted.symm

/-- Four loads of three partitions of one byte, with budgets for two and for three of them: the
larger budget still holds partition 2, which the smaller one has evicted. -/
theorem larger_budget_three :
    let files := fun id : UInt64 => some (PartitionFile.write .little id [7])
    let requests : List (UInt64 × Bool) := [(1, true), (2, false), (3, true), (1, true)]
    let small := (afterLoads .little files id ⟨{ capacity := 2 }⟩ requests).cache
    let large := (afterLoads .little files id ⟨{ capacity := 3 }⟩ requests).cache
    small.lru.ids = [1, 3] ∧ large.lru.ids = [1, 3, 2] ∧
      small.stats.hits ≤ large.stats.hits ∧ large.stats.misses ≤ small.stats.misses := by
  intro files requests
  have hrequested : Requested .little files id (fun _ => [7]) requests :=
    ⟨fun _ _ => rfl, fun _ _ _ _ _ => rfl, (by norm_num : 4 < 2 ^ 64)⟩
  have hkept : keys (fit 2 (asked (fun _ => [7]) requests)) = [1, 3] := by decide
  have hkept' : keys (fit 3 (asked (fun _ => [7]) requests)) = [1, 3, 2] := by decide
  obtain ⟨hids, -, -, hhits, hmisses, -⟩ :=
    larger_budget hrequested (by norm_num : 2 ≤ 3) (by norm_num) fun _ _ => one_le_two
  rw [hkept, hkept'] at hids
  dsimp only
  exact ⟨hids.1, hids.2, hhits, hmisses⟩

end AsyncPartitionLoader

end VeloGraphX
