import Mathlib
import VeloGraphX.Types
import VeloGraphX.Lib.RecencyList

/-!
# The partition cache

A map from partition ids to payloads, a linked list of the ids in order of use, and a byte
counter. Every entry remembers its list node; touching, replacing and evicting an entry keeps the
three structures in step.
-/

namespace VeloGraphX

/-- `PartitionId`, a `std::uint32_t`. -/
abbrev PartitionId := Fin (2 ^ 32)

/-- `std::list<PartitionId>`: nodes that keep their identity when others come and go. -/
structure LruList where
  nodes : List (ℕ × PartitionId) := []
  nextNode : ℕ := 0

namespace LruList

variable (lru : LruList)

/-- `push_front`. -/
def pushFront (id : PartitionId) : LruList := ⟨(lru.nextNode, id) :: lru.nodes, lru.nextNode + 1⟩

/-- `begin`, as the identity of the first node; it has none when the list is empty. -/
def first : ℕ := (lru.nodes.head?.map Prod.fst).getD lru.nextNode

/-- `erase` of a node. -/
def erase (node : ℕ) : LruList := { lru with nodes := lru.nodes.filter fun n => decide (n.1 ≠ node) }

/-- `pop_back`. -/
def popBack : LruList := { lru with nodes := lru.nodes.dropLast }

/-- The ids in the order of the list. -/
def ids : List PartitionId := lru.nodes.map Prod.snd

end LruList

/-- `PartitionCacheStats`. -/
structure PartitionCacheStats where
  residentBytes : ℕ := 0
  hits : ℕ := 0
  misses : ℕ := 0
  evictions : ℕ := 0

/-- `PartitionCache::Entry`. -/
structure CacheEntry (P : Type) where
  payload : P
  bytes : ℕ := 0
  lruIt : ℕ

/-- `PartitionCache`. -/
structure PartitionCache (P : Type) where
  capacity : ℕ := 0
  lru : LruList := {}
  entries : Std.TreeMap PartitionId (CacheEntry P) := {}
  stats : PartitionCacheStats := {}

namespace PartitionCache

variable {P : Type} (cache : PartitionCache P)

/-- `clear`. -/
def clear : PartitionCache P :=
  { cache with entries := {}, lru := { cache.lru with nodes := [] }
               stats := { cache.stats with residentBytes := 0 } }

/-- `contains`. -/
def contains (id : PartitionId) : Bool := cache.entries.contains id

/-- Make an entry the most recently used. -/
def touch (id : PartitionId) (entry : CacheEntry P) : PartitionCache P :=
  let lru := (cache.lru.erase entry.lruIt).pushFront id
  { cache with lru := lru, entries := cache.entries.insert id { entry with lruIt := lru.first } }

/-- `get`. -/
def get (id : PartitionId) : Option P × PartitionCache P :=
  match cache.entries[id]? with
  | none => (none, { cache with stats := { cache.stats with misses := addU64 cache.stats.misses 1 } })
  | some entry =>
    let cache := { cache with stats := { cache.stats with hits := addU64 cache.stats.hits 1 } }
    (some entry.payload, cache.touch id entry)

/-- Drop an entry from all three structures: shared by `put` and `erase`. -/
def drop (id : PartitionId) (entry : CacheEntry P) : PartitionCache P :=
  { cache with
    stats := { cache.stats with residentBytes := subU64 cache.stats.residentBytes entry.bytes }
    lru := cache.lru.erase entry.lruIt
    entries := cache.entries.erase id }

/-- Drop the entry of an id if there is one: the replacement step of `put`. -/
def dropExisting (id : PartitionId) : PartitionCache P :=
  match cache.entries[id]? with
  | some existing => cache.drop id existing
  | none => cache

/-- Evict the least recently used entry. -/
def evictOne : PartitionCache P :=
  match cache.lru.nodes.getLast? with
  | none => cache
  | some (_, victim) =>
    let cache := { cache with lru := cache.lru.popBack }
    match cache.entries[victim]? with
    | none => cache
    | some entry =>
      { cache with
        entries := cache.entries.erase victim
        stats := { cache.stats with
          residentBytes := subU64 cache.stats.residentBytes entry.bytes
          evictions := addU64 cache.stats.evictions 1 } }

/-- The eviction loop of `put`, with a bound on its turns: each shortens the list. -/
def makeRoom (bytes : ℕ) : ℕ → PartitionCache P → PartitionCache P
  | 0, cache => cache
  | turns + 1, cache =>
    if addU64 cache.stats.residentBytes bytes > cache.capacity ∧ cache.lru.nodes ≠ [] then
      makeRoom bytes turns cache.evictOne
    else cache

/-- The end of `put`: list the id first, emplace the entry and count its bytes. -/
def emplaceFront (id : PartitionId) (payload : P) (bytes : ℕ) : PartitionCache P :=
  let lru := cache.lru.pushFront id
  { cache with
    lru := lru
    entries := cache.entries.insertIfNew id ⟨payload, bytes, lru.first⟩
    stats := { cache.stats with residentBytes := addU64 cache.stats.residentBytes bytes } }

/-- `put`. -/
def put (id : PartitionId) (payload : P) (bytes : ℕ) : Except Exception Unit × PartitionCache P :=
  if bytes > cache.capacity then
    (.error (.lengthError "partition exceeds cache capacity"), cache)
  else
    let cache := cache.dropExisting id
    (.ok (), (makeRoom bytes cache.lru.nodes.length cache).emplaceFront id payload bytes)

/-- `erase`. -/
def erase (id : PartitionId) : Bool × PartitionCache P :=
  match cache.entries[id]? with
  | none => (false, cache)
  | some entry => (true, cache.drop id entry)

end PartitionCache

/-- The calls that change a cache. -/
inductive CacheCall (P : Type)
  | put (id : PartitionId) (payload : P) (bytes : ℕ)
  | get (id : PartitionId)
  | erase (id : PartitionId)
  | clear

namespace CacheCall

open RecencyList

variable {P : Type}

/-- Execute one call. -/
def exec (cache : PartitionCache P) : CacheCall P → PartitionCache P
  | put id payload bytes => (cache.put id payload bytes).2
  | get id => (cache.get id).2
  | erase id => (cache.erase id).2
  | clear => cache.clear

/-- Execute a sequence of calls on a new cache. -/
def run (capacity : ℕ) (calls : List (CacheCall P)) : PartitionCache P :=
  calls.foldl exec { capacity := capacity }

/-- What a call does to the recency list. -/
def effect (capacity : ℕ) (items : List (RecencyList.Item PartitionId P)) :
    CacheCall P → List (RecencyList.Item PartitionId P)
  | put id payload bytes => if capacity < bytes then items else insert capacity ⟨id, payload, bytes⟩ items
  | get id => RecencyList.touch id items
  | erase id => remove id items
  | clear => []

/-- The last item that was put under an id. -/
def lastPut (capacity : ℕ) (id : PartitionId) (calls : List (CacheCall P)) :
    Option (RecencyList.Item PartitionId P) :=
  calls.foldl (fun last call => match call with
    | put id' payload bytes => if id' = id ∧ bytes ≤ capacity then some ⟨id', payload, bytes⟩ else last
    | _ => last) none

end CacheCall

namespace PartitionCache

open RecencyList

variable {P : Type} {cache : PartitionCache P} {items : List (RecencyList.Item PartitionId P)}

/-- What a cache entry holds, without its list node. -/
def held (entry : CacheEntry P) : P × ℕ := (entry.payload, entry.bytes)

/-- The three structures of a cache in step with a recency list: the list of ids, the map, the list
nodes the entries remember, and the byte counter. -/
structure Refines (cache : PartitionCache P) (items : List (RecencyList.Item PartitionId P)) : Prop where
  nodup : (keys items).Nodup
  ids : cache.lru.ids = keys items
  nodes : (cache.lru.nodes.map Prod.fst).Nodup
  fresh : ∀ node ∈ cache.lru.nodes, node.1 < cache.lru.nextNode
  entries : ∀ id, cache.entries[id]?.map held =
    (find id items).map fun item => (item.payload, item.bytes)
  iterators : ∀ id entry, cache.entries[id]? = some entry → (entry.lruIt, id) ∈ cache.lru.nodes
  resident : cache.stats.residentBytes = total items
  bounded : total items ≤ cache.capacity

/-- Reading the map after an erasure. -/
theorem getElem?_erase (entries : Std.TreeMap PartitionId (CacheEntry P)) (id id' : PartitionId) :
    (entries.erase id)[id']? = if id = id' then none else entries[id']? := by
  rw [Std.TreeMap.getElem?_erase]
  exact if_congr Std.LawfulEqCmp.compare_eq_iff_eq rfl rfl

/-- Reading the map after an insertion. -/
theorem getElem?_insert (entries : Std.TreeMap PartitionId (CacheEntry P)) (id id' : PartitionId)
    (entry : CacheEntry P) :
    (entries.insert id entry)[id']? = if id = id' then some entry else entries[id']? := by
  rw [Std.TreeMap.getElem?_insert]
  exact if_congr Std.LawfulEqCmp.compare_eq_iff_eq rfl rfl

/-- Reading the map after an emplacement under a free id. -/
theorem getElem?_insertIfNew {entries : Std.TreeMap PartitionId (CacheEntry P)} {id : PartitionId}
    (hfree : entries[id]? = none) (id' : PartitionId) (entry : CacheEntry P) :
    (entries.insertIfNew id entry)[id']? = if id = id' then some entry else entries[id']? := by
  have hnot : id ∉ entries := by
    rw [Std.TreeMap.mem_iff_isSome_getElem?, hfree]
    exact Bool.false_ne_true
  rw [Std.TreeMap.getElem?_insertIfNew]
  exact if_congr ((and_iff_left hnot).trans Std.LawfulEqCmp.compare_eq_iff_eq) rfl rfl

/-- The empty cache. -/
theorem refines_empty (capacity : ℕ) : Refines ({ capacity := capacity } : PartitionCache P) [] where
  nodup := List.nodup_nil
  ids := rfl
  nodes := List.nodup_nil
  fresh _ h := absurd h List.not_mem_nil
  entries id := by rw [Std.TreeMap.getElem?_emptyc]; rfl
  iterators id entry h := by
    rw [Std.TreeMap.getElem?_emptyc] at h
    exact absurd h.symm (Option.some_ne_none entry)
  resident := rfl
  bounded := Nat.zero_le _

/-- The list node of an entry is the node of its id. -/
theorem Refines.erase_nodes (h : Refines cache items) {id : PartitionId} {entry : CacheEntry P}
    (hentry : cache.entries[id]? = some entry) :
    (cache.lru.erase entry.lruIt).nodes = cache.lru.nodes.filter fun node => decide (node.2 ≠ id) := by
  have hmem := h.iterators id entry hentry
  have hids : cache.lru.ids.Nodup := h.ids ▸ h.nodup
  refine List.filter_congr fun node hnode => ?_
  refine decide_eq_decide.mpr (not_congr ⟨fun heq => ?_, fun heq => ?_⟩)
  · exact congrArg Prod.snd (List.inj_on_of_nodup_map h.nodes hnode hmem heq)
  · exact congrArg Prod.fst (List.inj_on_of_nodup_map hids hnode hmem heq)

/-- The item of an entry. -/
theorem Refines.find_eq (h : Refines cache items) {id : PartitionId} {entry : CacheEntry P}
    (hentry : cache.entries[id]? = some entry) : find id items = some ⟨id, entry.payload, entry.bytes⟩ := by
  have hfind := h.entries id
  rw [hentry, Option.map_some] at hfind
  obtain ⟨item, hitem, heq⟩ := Option.map_eq_some_iff.mp hfind.symm
  obtain ⟨hpayload, hbytes⟩ := Prod.mk.inj heq
  rw [hitem]
  obtain ⟨key, payload, bytes⟩ := item
  have hkey : key = id := key_of_find hitem
  subst hkey hpayload hbytes
  rfl

/-- An id without an entry has no item. -/
theorem Refines.find_eq_none (h : Refines cache items) {id : PartitionId}
    (hentry : cache.entries[id]? = none) : find id items = none := by
  have hfind := h.entries id
  rw [hentry] at hfind
  exact Option.map_eq_none_iff.mp hfind.symm

/-- Looking for an id among the other items. -/
theorem find_remove (id id' : PartitionId) (items : List (RecencyList.Item PartitionId P)) :
    find id' (remove id items) = if id = id' then none else find id' items := by
  induction items with
  | nil => split <;> rfl
  | cons item rest ih =>
    rw [remove_cons, find_cons]
    by_cases hitem : item.key = id
    · rw [if_pos hitem, ih, hitem]
      split <;> rfl
    · rw [if_neg hitem, find_cons, ih]
      by_cases hid : id = id'
      · rw [if_pos hid, if_pos hid, if_neg fun heq => hitem (heq.trans hid.symm)]
      · rw [if_neg hid, if_neg hid]

/-- Dropping an entry from all three structures forgets its item. -/
theorem Refines.drop (h : Refines cache items) (hcap : cache.capacity < 2 ^ 64) {id : PartitionId}
    {entry : CacheEntry P} (hentry : cache.entries[id]? = some entry) :
    Refines (cache.drop id entry) (remove id items) := by
  have hnodes := h.erase_nodes hentry
  have htotal := total_remove h.nodup (h.find_eq hentry)
  have hbounded := h.bounded
  constructor
  · exact nodup_remove h.nodup id
  · change (cache.lru.erase entry.lruIt).nodes.map Prod.snd = _
    rw [hnodes, keys_remove, ← h.ids, LruList.ids, List.filter_map]
    rfl
  · change ((cache.lru.erase entry.lruIt).nodes.map Prod.fst).Nodup
    rw [hnodes]
    exact h.nodes.sublist (List.filter_sublist.map _)
  · intro node hnode
    exact h.fresh node (List.mem_of_mem_filter hnode)
  · intro id'
    change (cache.entries.erase id)[id']?.map held = _
    rw [getElem?_erase, find_remove]
    split
    · rfl
    · exact h.entries id'
  · intro id' entry' hentry'
    change (cache.entries.erase id)[id']? = some entry' at hentry'
    rw [getElem?_erase] at hentry'
    split at hentry'
    · exact absurd hentry'.symm (Option.some_ne_none _)
    · rename_i hne
      change (entry'.lruIt, id') ∈ (cache.lru.erase entry.lruIt).nodes
      rw [hnodes, List.mem_filter, decide_eq_true_eq]
      exact ⟨h.iterators id' entry' hentry', fun heq => hne heq.symm⟩
  · change subU64 cache.stats.residentBytes entry.bytes = _
    rw [h.resident, htotal, subU64]
    dsimp only
    rw [show total (remove id items) + entry.bytes + 2 ^ 64 - entry.bytes =
      total (remove id items) + 2 ^ 64 by omega, Nat.add_mod_right, Nat.mod_eq_of_lt (by
        rw [htotal] at hbounded; dsimp only at hbounded; omega)]
  · change total (remove id items) ≤ cache.capacity
    omega

/-- Caches with the same list, the same map and the same byte counter refine the same items. -/
theorem Refines.congr {cache' : PartitionCache P} (h : Refines cache items)
    (hcapacity : cache'.capacity = cache.capacity) (hlru : cache'.lru = cache.lru)
    (hentries : ∀ id : PartitionId, cache'.entries[id]? = cache.entries[id]?)
    (hresident : cache'.stats.residentBytes = cache.stats.residentBytes) : Refines cache' items where
  nodup := h.nodup
  ids := hlru ▸ h.ids
  nodes := hlru ▸ h.nodes
  fresh := hlru ▸ h.fresh
  entries id := hentries id ▸ h.entries id
  iterators id entry hentry := hlru ▸ h.iterators id entry (hentries id ▸ hentry)
  resident := hresident.trans h.resident
  bounded := hcapacity ▸ h.bounded

/-- Admitting an item under a free id makes it the most recently used. -/
theorem Refines.emplaceFront (h : Refines cache items) (hcap : cache.capacity < 2 ^ 64) {id : PartitionId}
    (hfree : cache.entries[id]? = none) (payload : P) {bytes : ℕ}
    (hroom : total items + bytes ≤ cache.capacity) :
    Refines (cache.emplaceFront id payload bytes) (⟨id, payload, bytes⟩ :: items) := by
  have hnode : (cache.lru.pushFront id).first = cache.lru.nextNode := rfl
  have hnot : id ∉ keys items := RecencyList.find_eq_none.mp (h.find_eq_none hfree)
  constructor
  · exact List.nodup_cons.mpr ⟨hnot, h.nodup⟩
  · exact congrArg (id :: ·) h.ids
  · refine List.nodup_cons.mpr ⟨fun hmem => ?_, h.nodes⟩
    obtain ⟨node, hmem, heq⟩ := List.mem_map.mp hmem
    exact absurd (h.fresh node hmem) (by rw [heq]; exact lt_irrefl _)
  · intro node hmem
    rcases List.mem_cons.mp hmem with rfl | hmem
    · exact Nat.lt_succ_self _
    · exact (h.fresh node hmem).trans (Nat.lt_succ_self _)
  · intro id'
    change (cache.entries.insertIfNew id _)[id']?.map held = _
    rw [getElem?_insertIfNew hfree, find_cons]
    dsimp only
    split
    · rfl
    · exact h.entries id'
  · intro id' entry hentry
    change (cache.entries.insertIfNew id _)[id']? = some entry at hentry
    rw [getElem?_insertIfNew hfree] at hentry
    change (entry.lruIt, id') ∈ (cache.lru.nextNode, id) :: cache.lru.nodes
    split at hentry
    · rename_i heq
      rw [← Option.some.inj hentry, heq]
      exact List.mem_cons_self
    · exact List.mem_cons_of_mem _ (h.iterators id' entry hentry)
  · change addU64 cache.stats.residentBytes bytes = _
    rw [h.resident, total_cons, addU64, Nat.mod_eq_of_lt (by omega), Nat.add_comm]
  · change total (⟨id, payload, bytes⟩ :: items) ≤ cache.capacity
    rw [total_cons, Nat.add_comm]
    exact hroom

/-- Touching an entry makes its item the most recently used. -/
theorem Refines.touch (h : Refines cache items) (hcap : cache.capacity < 2 ^ 64) {id : PartitionId}
    {entry : CacheEntry P} (hentry : cache.entries[id]? = some entry) :
    Refines (cache.touch id entry) (RecencyList.touch id items) := by
  have hfind := h.find_eq hentry
  have htotal := total_remove h.nodup hfind
  have hbounded := h.bounded
  have hdropped := h.drop hcap hentry
  have hfree : (cache.drop id entry).entries[id]? = none := by
    refine (getElem?_erase _ _ _).trans ?_
    rw [if_pos rfl]
  have hplaced := hdropped.emplaceFront hcap hfree entry.payload
    (show total (remove id items) + entry.bytes ≤ cache.capacity by dsimp only at htotal; omega)
  have htouch : RecencyList.touch id items = ⟨id, entry.payload, entry.bytes⟩ :: remove id items := by
    rw [RecencyList.touch, hfind]
  rw [htouch]
  refine hplaced.congr rfl rfl (fun id' => ?_) ?_
  · refine (getElem?_insert _ _ _ _).trans ((getElem?_insertIfNew hfree _ _).trans ?_).symm
    refine ite_congr rfl (fun _ => rfl) fun hne => ?_
    refine (getElem?_erase _ _ _).trans (if_neg hne)
  · change cache.stats.residentBytes =
      addU64 (subU64 cache.stats.residentBytes entry.bytes) entry.bytes
    rw [h.resident, addU64, subU64]
    dsimp only at htotal
    omega

/-- Evicting forgets the least recently used item. -/
theorem Refines.evictOne {init : List (RecencyList.Item PartitionId P)}
    {last : RecencyList.Item PartitionId P} (h : Refines cache (init ++ [last])) (hcap : cache.capacity < 2 ^ 64) :
    Refines cache.evictOne init ∧ cache.evictOne.capacity = cache.capacity := by
  have hmem : last ∈ init ++ [last] := List.mem_append_right _ List.mem_cons_self
  have hfound := h.entries last.key
  rw [find_of_mem h.nodup hmem] at hfound
  obtain ⟨entry, hentry, -⟩ := Option.map_eq_some_iff.mp hfound
  have hback : cache.lru.nodes.getLast?.map Prod.snd = some last.key := by
    rw [← List.getLast?_map]
    change cache.lru.ids.getLast? = _
    rw [h.ids, keys, List.map_append, List.map_singleton, List.getLast?_concat]
  obtain ⟨⟨node, victim⟩, hlast, hvictim⟩ := Option.map_eq_some_iff.mp hback
  obtain rfl : victim = last.key := hvictim
  have hnodes : cache.lru.nodes.dropLast ++ [(node, last.key)] = cache.lru.nodes :=
    List.dropLast_append_getLast? _ hlast
  have hkeys : last.key ∉ keys init := fun hkey => by
    have hnodup := h.nodup
    rw [keys, List.map_append, List.nodup_append] at hnodup
    exact hnodup.2.2 _ hkey _ (List.mem_singleton_self _) rfl
  have hinit : remove last.key (init ++ [last]) = init := by
    rw [remove, List.filter_append]
    change remove last.key init ++ remove last.key [last] = init
    rw [remove_of_notMem hkeys, remove_cons, if_pos rfl]
    exact List.append_nil init
  have hdropped := h.drop hcap hentry
  rw [hinit] at hdropped
  -- erasing the node of the last item is taking the last node off
  have hids : cache.lru.nodes.dropLast.map Prod.snd = keys init := by
    have hsplit := h.ids
    rw [LruList.ids, ← hnodes, keys, List.map_append, List.map_append] at hsplit
    exact List.append_inj_left' hsplit rfl
  have hothers : ∀ n ∈ cache.lru.nodes.dropLast, n.2 ≠ last.key := fun n hn heq =>
    hkeys (hids ▸ heq ▸ List.mem_map_of_mem hn)
  have herase : (cache.lru.erase entry.lruIt) = cache.lru.popBack := by
    have hfilter := h.erase_nodes hentry
    rw [← hnodes, List.filter_append, List.filter_cons_of_neg (by simp), List.filter_nil,
      List.append_nil] at hfilter
    rw [List.filter_eq_self.mpr fun n hn => decide_eq_true (hothers n hn)] at hfilter
    exact congrArg (fun nodes => LruList.mk nodes cache.lru.nextNode) hfilter
  have hevict : cache.evictOne = { cache with
      lru := cache.lru.popBack
      entries := cache.entries.erase last.key
      stats := { cache.stats with
        residentBytes := subU64 cache.stats.residentBytes entry.bytes
        evictions := addU64 cache.stats.evictions 1 } } := by
    unfold PartitionCache.evictOne
    rw [hlast]
    dsimp only
    rw [hentry]
  rw [hevict]
  exact ⟨hdropped.congr rfl herase.symm (fun _ => rfl) rfl, rfl⟩

/-- The eviction loop keeps the longest prefix of items that leaves room. -/
theorem Refines.makeRoom (h : Refines cache items) (hcap : cache.capacity < 2 ^ 63) {bytes : ℕ}
    (hbytes : bytes ≤ cache.capacity) :
    Refines (makeRoom bytes items.length cache) (fit (cache.capacity - bytes) items) ∧
      (makeRoom bytes items.length cache).capacity = cache.capacity := by
  induction items using List.reverseRecOn generalizing cache with
  | nil => exact ⟨h, rfl⟩
  | append_singleton init last ih =>
    have hbounded := h.bounded
    have hsum : addU64 cache.stats.residentBytes bytes = total (init ++ [last]) + bytes := by
      rw [h.resident, addU64, Nat.mod_eq_of_lt (by omega)]
    have hnonempty : cache.lru.nodes ≠ [] := fun hnil => by
      have hids := h.ids
      rw [LruList.ids, hnil, keys, List.map_append] at hids
      exact absurd hids.symm (by simp)
    rw [List.length_append, List.length_singleton, PartitionCache.makeRoom, hsum]
    by_cases hfull : cache.capacity < total (init ++ [last]) + bytes
    · obtain ⟨hevicted, hcapacity⟩ := h.evictOne (by omega)
      rw [if_pos ⟨hfull, hnonempty⟩, fit_append_singleton (by omega), ← hcapacity]
      exact ih hevicted (by omega) (by omega)
    · rw [if_neg fun hloop => hfull hloop.1, fit_of_total_le (by omega)]
      exact ⟨h, rfl⟩

/-- `get` finds the payload of the item and makes it the most recently used. -/
theorem Refines.get (h : Refines cache items) (hcap : cache.capacity < 2 ^ 64) (id : PartitionId) :
    (cache.get id).1 = (find id items).map RecencyList.Item.payload ∧
      Refines (cache.get id).2 (RecencyList.touch id items) ∧
      (cache.get id).2.capacity = cache.capacity := by
  unfold PartitionCache.get
  split
  · rename_i hnone
    have hfind := h.find_eq_none hnone
    rw [hfind, RecencyList.touch, hfind]
    exact ⟨rfl, h.congr rfl rfl (fun _ => rfl) rfl, rfl⟩
  · rename_i entry hentry
    rw [h.find_eq hentry]
    have hhit : Refines { cache with
        stats := { cache.stats with hits := addU64 cache.stats.hits 1 } } items :=
      h.congr rfl rfl (fun _ => rfl) rfl
    exact ⟨rfl, hhit.touch hcap hentry, rfl⟩

/-- `erase` forgets the item. -/
theorem Refines.erase (h : Refines cache items) (hcap : cache.capacity < 2 ^ 64) (id : PartitionId) :
    (cache.erase id).1 = (find id items).isSome ∧ Refines (cache.erase id).2 (remove id items) ∧
      (cache.erase id).2.capacity = cache.capacity := by
  unfold PartitionCache.erase
  split
  · rename_i hnone
    have hfind := h.find_eq_none hnone
    rw [hfind, remove_of_notMem (RecencyList.find_eq_none.mp hfind)]
    exact ⟨rfl, h, rfl⟩
  · rename_i entry hentry
    rw [h.find_eq hentry]
    exact ⟨rfl, h.drop hcap hentry, rfl⟩

/-- `clear` forgets all items. -/
theorem refines_clear (cache : PartitionCache P) : Refines cache.clear [] where
  nodup := List.nodup_nil
  ids := rfl
  nodes := List.nodup_nil
  fresh _ hmem := absurd hmem List.not_mem_nil
  entries id := (refines_empty cache.capacity).entries id
  iterators id entry hentry := (refines_empty cache.capacity).iterators id entry hentry
  resident := rfl
  bounded := Nat.zero_le _

/-- Dropping any existing entry of an id leaves the other items. -/
theorem Refines.dropExisting (h : Refines cache items) (hcap : cache.capacity < 2 ^ 64)
    (id : PartitionId) :
    Refines (cache.dropExisting id) (remove id items) ∧
      (cache.dropExisting id).capacity = cache.capacity := by
  unfold PartitionCache.dropExisting
  split
  · rename_i existing hentry
    exact ⟨h.drop hcap hentry, rfl⟩
  · rename_i hentry
    rw [remove_of_notMem (RecencyList.find_eq_none.mp (h.find_eq_none hentry))]
    exact ⟨h, rfl⟩

/-- `put` admits the item after making room among the others. -/
theorem Refines.put (h : Refines cache items) (hcap : cache.capacity < 2 ^ 63) (id : PartitionId)
    (payload : P) {bytes : ℕ} (hbytes : bytes ≤ cache.capacity) :
    (cache.put id payload bytes).1 = .ok () ∧
      Refines (cache.put id payload bytes).2 (insert cache.capacity ⟨id, payload, bytes⟩ items) ∧
      (cache.put id payload bytes).2.capacity = cache.capacity := by
  unfold PartitionCache.put
  rw [if_neg (not_lt.mpr hbytes)]
  dsimp only
  obtain ⟨hrest, hcapacity⟩ := h.dropExisting (by omega) id
  generalize cache.dropExisting id = dropped at hrest hcapacity ⊢
  have hturns : dropped.lru.nodes.length = (remove id items).length := by
    have hids := congrArg List.length hrest.ids
    rwa [LruList.ids, keys, List.length_map, List.length_map] at hids
  obtain ⟨hroom, hcapacity'⟩ := hrest.makeRoom (hcapacity ▸ hcap) (hcapacity ▸ hbytes)
  rw [hturns]
  rw [hcapacity] at hroom hcapacity'
  generalize PartitionCache.makeRoom bytes (remove id items).length dropped = room at hroom hcapacity' ⊢
  have hfit := total_fit_le (cache.capacity - bytes) (remove id items)
  have hfree : room.entries[id]? = none := by
    have hfind : find id (fit (cache.capacity - bytes) (remove id items)) = none := by
      refine RecencyList.find_eq_none.mpr fun hmem => ?_
      have hkey := ((fit_isPrefix _ _).map RecencyList.Item.key).subset hmem
      rw [← keys, keys_remove, List.mem_filter, decide_eq_true_eq] at hkey
      exact hkey.2 rfl
    have hentries := hroom.entries id
    rw [hfind] at hentries
    exact Option.map_eq_none_iff.mp hentries
  refine ⟨rfl, hroom.emplaceFront (by omega) hfree payload (by omega), hcapacity'⟩

/-- One call acts on the recency list as its abstract counterpart. -/
theorem Refines.exec (h : Refines cache items) (hcap : cache.capacity < 2 ^ 63) (call : CacheCall P) :
    Refines (call.exec cache) (call.effect cache.capacity items) ∧
      (call.exec cache).capacity = cache.capacity := by
  cases call with
  | put id payload bytes =>
    rw [CacheCall.exec, CacheCall.effect]
    split
    · rename_i hlarge
      rw [PartitionCache.put, if_pos hlarge]
      exact ⟨h, rfl⟩
    · rename_i hfits
      exact (h.put hcap id payload (not_lt.mp hfits)).2
  | get id => exact (h.get (by omega) id).2
  | erase id => exact (h.erase (by omega) id).2
  | clear => exact ⟨refines_clear cache, rfl⟩

/-- After every run the three structures are in step with the recency list of the same calls. -/
theorem refines_run {capacity : ℕ} (hcap : capacity < 2 ^ 63) (calls : List (CacheCall P)) :
    Refines (CacheCall.run capacity calls) (calls.foldl (CacheCall.effect capacity) []) ∧
      (CacheCall.run capacity calls).capacity = capacity := by
  have hfold : ∀ (cache : PartitionCache P) (items : List (RecencyList.Item PartitionId P)),
      Refines cache items → cache.capacity = capacity →
        Refines (calls.foldl CacheCall.exec cache)
            (calls.foldl (CacheCall.effect capacity) items) ∧
          (calls.foldl CacheCall.exec cache).capacity = capacity := by
    induction calls with
    | nil => exact fun cache items h hcapacity => ⟨h, hcapacity⟩
    | cons call rest ih =>
      intro cache items h hcapacity
      obtain ⟨hcall, hkept⟩ := h.exec (hcapacity ▸ hcap) call
      rw [hcapacity] at hcall hkept
      exact ih _ _ hcall hkept
  exact hfold _ _ (refines_empty capacity) rfl

/-- Every item is the last one that was put under its id. -/
theorem lastPut_of_mem (capacity : ℕ) (calls : List (CacheCall P)) {item : RecencyList.Item PartitionId P}
    (hmem : item ∈ calls.foldl (CacheCall.effect capacity) []) :
    CacheCall.lastPut capacity item.key calls = some item := by
  induction calls using List.reverseRecOn with
  | nil => exact absurd hmem List.not_mem_nil
  | append_singleton calls call ih =>
    rw [List.foldl_append, List.foldl_cons, List.foldl_nil] at hmem
    rw [CacheCall.lastPut, List.foldl_append, List.foldl_cons, List.foldl_nil]
    generalize calls.foldl (CacheCall.effect capacity) [] = items at ih hmem
    change item ∈ items → CacheCall.lastPut capacity item.key calls = some item at ih
    cases call with
    | put id payload bytes =>
      rw [CacheCall.effect] at hmem
      dsimp only
      split at hmem
      · rename_i hlarge
        rw [if_neg fun hput => absurd hput.2 (not_le.mpr hlarge)]
        exact ih hmem
      · rename_i hfits
        rcases List.mem_cons.mp hmem with rfl | hkept
        · rw [if_pos ⟨rfl, not_lt.mp hfits⟩]
        · obtain ⟨hitem, hkey⟩ := mem_remove.mp ((fit_isPrefix _ _).subset hkept)
          rw [if_neg fun hput => hkey hput.1.symm]
          exact ih hitem
    | get id => exact ih (mem_of_mem_touch hmem)
    | erase id => exact ih (mem_remove.mp hmem).1
    | clear => exact absurd hmem List.not_mem_nil

/-- The list holds the stored ids. -/
theorem Refines.perm_ids (h : Refines cache items) : cache.lru.ids.Perm cache.entries.keys := by
  rw [h.ids]
  refine (List.perm_ext_iff_of_nodup h.nodup Std.TreeMap.nodup_keys).mpr fun id => ?_
  rw [Std.TreeMap.mem_keys, Std.TreeMap.mem_iff_isSome_getElem?]
  cases hentry : cache.entries[id]? with
  | none =>
    exact iff_of_false (RecencyList.find_eq_none.mp (h.find_eq_none hentry)) Bool.false_ne_true
  | some entry =>
    have hmem := mem_of_find (h.find_eq hentry)
    exact iff_of_true (List.mem_map_of_mem (f := RecencyList.Item.key) hmem) rfl

/-- `get` returns the payload of the last put of a resident id. -/
theorem Refines.get_lastPut {capacity : ℕ} (hcap : capacity < 2 ^ 63) (calls : List (CacheCall P))
    (id : PartitionId) :
    ((CacheCall.run capacity calls).get id).1 =
      if (CacheCall.run capacity calls).contains id then
        (CacheCall.lastPut capacity id calls).map RecencyList.Item.payload
      else none := by
  obtain ⟨h, hcapacity⟩ := refines_run hcap calls
  rw [(h.get (by omega) id).1, contains, Std.TreeMap.contains_eq_isSome_getElem?]
  cases hentry : (CacheCall.run capacity calls).entries[id]? with
  | none => rw [h.find_eq_none hentry]; rfl
  | some entry =>
    have hfind := h.find_eq hentry
    have hlast := lastPut_of_mem capacity calls (mem_of_find hfind)
    dsimp only at hlast
    rw [hfind, hlast]
    rfl

/-- After every run a cache is a recency list: its structures are in step, `get` returns the last
put of a resident id and moves it to the front, `put` evicts the shortest suffix that makes room or
changes nothing, `erase` and `clear` forget. -/
theorem cache_refines_recency {capacity : ℕ} (hcap : capacity < 2 ^ 63) (calls : List (CacheCall P)) :
    let cache := CacheCall.run capacity calls
    let items := calls.foldl (CacheCall.effect capacity) []
    (Refines cache items ∧ cache.capacity = capacity ∧ cache.lru.ids.Perm cache.entries.keys) ∧
      (∀ id, ((cache.get id).1 = if cache.contains id then
            (CacheCall.lastPut capacity id calls).map RecencyList.Item.payload else none) ∧
          Refines (cache.get id).2 (RecencyList.touch id items) ∧
          ∀ item, find id items = some item →
            RecencyList.touch id items = item :: remove id items) ∧
      (∀ id payload bytes,
        (capacity < bytes → cache.put id payload bytes =
          (.error (.lengthError "partition exceeds cache capacity"), cache)) ∧
        (bytes ≤ capacity → ∃ kept evicted, remove id items = kept ++ evicted ∧
          (cache.put id payload bytes).1 = .ok () ∧
          Refines (cache.put id payload bytes).2 (⟨id, payload, bytes⟩ :: kept) ∧
          ∀ kept' evicted', remove id items = kept' ++ evicted' →
            total kept' + bytes ≤ capacity → evicted.length ≤ evicted'.length)) ∧
      (∀ id, (cache.erase id).1 = (find id items).isSome ∧
        Refines (cache.erase id).2 (remove id items)) ∧
      Refines cache.clear [] := by
  obtain ⟨h, hcapacity⟩ := refines_run hcap calls
  have hget := Refines.get_lastPut hcap calls
  dsimp only
  generalize CacheCall.run capacity calls = cache at h hcapacity hget ⊢
  generalize calls.foldl (CacheCall.effect capacity) [] = items at h ⊢
  have hcap' : cache.capacity < 2 ^ 64 := by omega
  refine ⟨⟨h, hcapacity, h.perm_ids⟩, fun id => ⟨hget id, (h.get hcap' id).2.1, fun item hfind => ?_⟩,
    fun id payload bytes => ⟨fun hlarge => ?_, fun hfits => ?_⟩, fun id => ?_, refines_clear cache⟩
  · rw [RecencyList.touch, hfind]
  · exact if_pos (hcapacity.symm ▸ hlarge)
  · obtain ⟨hok, hput, -⟩ := h.put (hcapacity.symm ▸ hcap) id payload (hcapacity.symm ▸ hfits)
    obtain ⟨kept, hinsert, hsplit, hshortest⟩ :=
      @insert_spec _ _ _ capacity ⟨id, payload, bytes⟩ hfits items
    rw [hcapacity, hinsert] at hput
    exact ⟨kept, _, hsplit, hok, hput, hshortest⟩
  · obtain ⟨hresult, herased, -⟩ := h.erase hcap' id
    exact ⟨hresult, herased⟩

/-- A third put evicts the one of two items that was not touched since. -/
theorem cache_refines_recency_put :
    let cache := CacheCall.run 100 [.put 1 10 40, .put 2 20 40, .get 1, .put 3 (30 : ℕ) 40]
    Refines cache [⟨3, 30, 40⟩, ⟨1, 10, 40⟩] ∧ (cache.get 1).1 = some 10 ∧
      (cache.get 2).1 = none ∧ (cache.get 3).1 = some 30 := by
  obtain ⟨⟨hrefines, -⟩, hget, -⟩ := @cache_refines_recency ℕ 100 (by decide)
    [.put 1 10 40, .put 2 20 40, .get 1, .put 3 30 40]
  refine ⟨hrefines, (hget 1).1.trans ?_, (hget 2).1.trans ?_, (hget 3).1.trans ?_⟩ <;>
    decide +kernel

end PartitionCache

end VeloGraphX
