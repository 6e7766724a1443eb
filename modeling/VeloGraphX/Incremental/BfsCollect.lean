import Mathlib
import VeloGraphX.Incremental.BfsInvalidation
import VeloGraphX.Lib.LastWrite

/-!
# Incremental breadth-first distances: the operations of a batch

The loop over the batch keeps the last operation for each edge. What it keeps describes the
graph after the batch: its additions are arcs of that graph, every other arc of it was there
before and its key is not deleted, and its deletions are what the invalidation works with.
-/

namespace VeloGraphX

open FuelLoop PointUpdate ShortestPath LastWrite ArcSet GraphAccess

section Collect

variable {G : Type} [GraphAccess G] (g : G)

/-- The key under which the loop over a batch sees an operation. -/
def finalEntry (op : EdgeUpdate) : Option (ℕ × EdgeUpdate) :=
  some (bfsEdgeKey g op.src op.dst, op)

/-- The key of an operation. -/
def opKey (op : EdgeUpdate) : ℕ := bfsEdgeKey g op.src op.dst

/-- The edge of an operation. -/
def opEdge (op : EdgeUpdate) : VertexId × VertexId := (op.src, op.dst)

/-- The last operations that add or that remove, from the newest to the oldest. -/
def finalOps (ops : List EdgeUpdate) (add : Bool) : List EdgeUpdate :=
  ((keepLast (finalEntry g) ops).filter fun op => op.add = add).reverse

/-- What the loop has collected from the operations it has looked at. -/
structure Collected (bound : ℕ) (ops : List EdgeUpdate) (final : FinalUpdates) : Prop where
  seen : final.seen.Holds bound ((keepLast (finalEntry g) ops).map (opKey g)).toFinset
  deletionKeys : final.deletionKeys.Holds bound ((finalOps g ops false).map (opKey g)).toFinset
  additions : final.additions = (finalOps g ops true).map opEdge
  deletions : final.deletions = (finalOps g ops false).map opEdge

variable {g}

/-- The kept operations have distinct keys. -/
theorem nodup_opKey (ops : List EdgeUpdate) :
    ((keepLast (finalEntry g) ops).map (opKey g)).Nodup :=
  nodup_map_keepLast (fun op k kept hentry => by cases hentry; rfl) ops

/-- A key has been seen when a kept operation has it. -/
theorem mem_seen_iff (ops : List EdgeUpdate) (key : ℕ) :
    key ∈ (ops.foldr (keepStep (finalEntry g)) ([], [])).1 ↔
      key ∈ ((keepLast (finalEntry g) ops).map (opKey g)).toFinset := by
  induction ops with
  | nil => simp [keepLast]
  | cons op rest ih =>
    rw [keepLast_cons, List.foldr_cons, keepStep]
    simp only [finalEntry] at ih ⊢
    split
    · exact ih
    · rw [List.mem_cons, ih, List.map_cons, List.toFinset_cons, Finset.mem_insert]
      rfl

/-- One more member of a list. -/
theorem toFinset_append_singleton {α : Type} [DecidableEq α] (list : List α) (a : α) :
    (list ++ [a]).toFinset = insert a list.toFinset := by
  rw [List.toFinset_append, List.toFinset_cons, List.toFinset_nil, Finset.union_comm]
  rfl

section OneOperation

variable {rest : List EdgeUpdate} {op : EdgeUpdate}

/-- An operation whose key has been seen is not kept. -/
theorem keepLast_of_seen
    (hmem : opKey g op ∈ ((keepLast (finalEntry g) rest).map (opKey g)).toFinset) :
    keepLast (finalEntry g) (op :: rest) = keepLast (finalEntry g) rest := by
  rw [keepLast_cons]
  exact if_pos ((mem_seen_iff rest _).mpr hmem)

/-- An operation with a new key is kept. -/
theorem keepLast_of_fresh
    (hmem : opKey g op ∉ ((keepLast (finalEntry g) rest).map (opKey g)).toFinset) :
    keepLast (finalEntry g) (op :: rest) = op :: keepLast (finalEntry g) rest := by
  rw [keepLast_cons]
  exact if_neg fun hin => hmem ((mem_seen_iff rest _).mp hin)

/-- The newest operation comes last among those of its kind. -/
theorem finalOps_of_fresh
    (hmem : opKey g op ∉ ((keepLast (finalEntry g) rest).map (opKey g)).toFinset) :
    finalOps g (op :: rest) op.add = finalOps g rest op.add ++ [op] := by
  rw [finalOps, keepLast_of_fresh hmem, List.filter_cons_of_pos (by simp), List.reverse_cons]
  rfl

/-- Operations of the other kind stay as they are. -/
theorem finalOps_of_ne
    (hmem : opKey g op ∉ ((keepLast (finalEntry g) rest).map (opKey g)).toFinset) {add : Bool}
    (hne : op.add ≠ add) : finalOps g (op :: rest) add = finalOps g rest add := by
  rw [finalOps, keepLast_of_fresh hmem, List.filter_cons_of_neg (by simpa using hne)]
  rfl

/-- There are no more keys than operations. -/
theorem card_keys_le (list : List EdgeUpdate) :
    (list.map (opKey g)).toFinset.card ≤ list.length :=
  (List.toFinset_card_le _).trans_eq (List.length_map _)

/-- The kept operations are among those that were looked at. -/
theorem length_finalOps_le (ops : List EdgeUpdate) (add : Bool) :
    (finalOps g ops add).length ≤ ops.length := by
  unfold finalOps
  rw [List.length_reverse]
  exact (List.length_filter_le _ _).trans (length_keepLast_le ops)

/-- A newer operation has the same key. -/
theorem Collected.skip {bound : ℕ} {final : FinalUpdates} (h : Collected g bound rest final)
    (hmem : opKey g op ∈ ((keepLast (finalEntry g) rest).map (opKey g)).toFinset)
    {seen : ReusableKeySet} (hseen : seen.Holds bound
      (insert (opKey g op) ((keepLast (finalEntry g) rest).map (opKey g)).toFinset)) :
    Collected g bound (op :: rest) { final with seen := seen } := by
  have hkept := keepLast_of_seen hmem
  have hops : ∀ add, finalOps g (op :: rest) add = finalOps g rest add := fun add => by
    rw [finalOps, hkept]
    rfl
  rw [Finset.insert_eq_self.mpr hmem] at hseen
  refine ⟨?_, ?_, ?_, ?_⟩
  · rwa [hkept]
  · rw [hops]
    exact h.deletionKeys
  · rw [hops]
    exact h.additions
  · rw [hops]
    exact h.deletions

end OneOperation

/-- One turn of the loop looks at one more operation. -/
theorem collectUpdate_spec {bound : ℕ} {rest : List EdgeUpdate} {op : EdgeUpdate}
    {final : FinalUpdates} (h : Collected g bound rest final) (hroom : rest.length < bound) :
    Returns (fun fuel => collectUpdate g fuel final op) (Collected g bound (op :: rest)) := by
  have hseenRoom : opKey g op ∉ ((keepLast (finalEntry g) rest).map (opKey g)).toFinset →
      ((keepLast (finalEntry g) rest).map (opKey g)).toFinset.card < bound := fun _ =>
    (card_keys_le _).trans_lt ((length_keepLast_le rest).trans_lt hroom)
  have hdeletedRoom : opKey g op ∉ ((finalOps g rest false).map (opKey g)).toFinset →
      ((finalOps g rest false).map (opKey g)).toFinset.card < bound := fun _ =>
    (card_keys_le _).trans_lt ((length_finalOps_le rest false).trans_lt hroom)
  refine (h.seen.insert hseenRoom).bind fun inserted hinserted => ?_
  obtain ⟨fresh, seen⟩ := inserted
  obtain ⟨hfresh, hseen⟩ := hinserted
  dsimp only at hfresh hseen ⊢
  by_cases hmem : opKey g op ∈ ((keepLast (finalEntry g) rest).map (opKey g)).toFinset
  · have hold : fresh = false := by
      rw [hfresh]
      exact decide_eq_false (not_not.mpr hmem)
    rw [hold]
    exact Returns.pure (h.skip hmem hseen)
  · have hnew : fresh = true := by
      rw [hfresh]
      exact decide_eq_true hmem
    have hops := finalOps_of_fresh hmem
    have hother := fun add => @finalOps_of_ne _ _ _ _ _ hmem add
    have hseen' : seen.Holds bound
        ((keepLast (finalEntry g) (op :: rest)).map (opKey g)).toFinset := by
      rw [keepLast_of_fresh hmem, List.map_cons, List.toFinset_cons]
      exact hseen
    rw [hnew]
    cases hadd : op.add with
    | true =>
      rw [hadd] at hops hother
      refine Returns.pure ⟨hseen', ?_, ?_, ?_⟩
      · rw [hother false (by simp)]
        exact h.deletionKeys
      · rw [hops, List.map_append, ← h.additions]
        rfl
      · rw [hother false (by simp)]
        exact h.deletions
    | false =>
      rw [hadd] at hops hother
      refine Returns.map ((h.deletionKeys.insert hdeletedRoom).mono
        fun deletion hdeletion => ⟨hseen', ?_, ?_, ?_⟩)
      · rw [hops, List.map_append, List.map_singleton, toFinset_append_singleton]
        exact hdeletion.2
      · rw [hother true (by simp)]
        exact h.additions
      · rw [hops, List.map_append, ← h.deletions]
        rfl

/-- The loop over a batch collects its last operations. -/
theorem collect_spec {seen deletionKeys : ReusableKeySet} (hseen : seen.Reusable)
    (hkeys : deletionKeys.Reusable) (updates : List EdgeUpdate) :
    Returns (fun fuel => foldRun (collectUpdate g fuel) updates.reverse
      { seen := seen.reset updates.length, deletionKeys := deletionKeys.reset updates.length })
      (Collected g updates.length updates) := by
  refine (returns_foldRun (fun rest final => ∃ looked, rest.reverse ++ looked = updates ∧
    Collected g updates.length looked final) (fun op rest final hinv => ?_) _ _
    ⟨[], by simp, hseen.reset _, hkeys.reset _, rfl, rfl⟩).mono fun final hfinal => ?_
  · obtain ⟨looked, heq, hcollected⟩ := hinv
    have hroom : looked.length < updates.length := by
      rw [← heq, List.length_append, List.length_reverse, List.length_cons]
      omega
    refine (collectUpdate_spec hcollected hroom).mono fun next hnext => ⟨op :: looked, ?_, hnext⟩
    rw [← heq, List.reverse_cons, List.append_assoc, List.singleton_append]
  · obtain ⟨looked, heq, hcollected⟩ := hfinal
    rw [List.reverse_nil, List.nil_append] at heq
    exact heq ▸ hcollected

/-- An operation asks something of the arcs that have its key. -/
theorem isSome_writeOn_iff {u v : VertexId} (hne : u ≠ v) (op : EdgeUpdate) :
    (writeOn (isDirected g) u v op).isSome ↔ opKey g op = bfsEdgeKey g u v := by
  unfold writeOn opKey bfsEdgeKey
  rw [edgeKey_eq_iff]
  split
  · rename_i haddr
    exact iff_of_true rfl haddr.2
  · rename_i haddr
    refine iff_of_false (by simp) fun hor => haddr ⟨fun hloop => hne ?_, hor⟩
    rcases hor with ⟨rfl, rfl⟩ | ⟨-, rfl, rfl⟩
    · exact hloop
    · exact hloop.symm

/-- An operation writes what it asks for. -/
theorem writeOn_eq_add {directed : Bool} {u v : VertexId} {op : EdgeUpdate}
    (h : (writeOn directed u v op).isSome) : writeOn directed u v op = some op.add := by
  unfold writeOn at h ⊢
  split
  · rfl
  · rename_i hnot
    rw [if_neg hnot] at h
    exact absurd h (by simp)

/-- An arc is the location that the operations with its key write. -/
theorem locates_finalEntry {u v : VertexId} (hne : u ≠ v) :
    Locates (finalEntry g) (writeOn (isDirected g) u v) (bfsEdgeKey g u v) := by
  refine ⟨fun op hnone => ?_, fun op k kept hentry => ?_, fun op k kept hentry => ?_⟩
  · exact absurd hnone (by simp [finalEntry])
  · cases hentry
    rfl
  · cases hentry
    exact isSome_writeOn_iff hne op

/-- The keys of the last operations that add or that remove. -/
def finalKeys (g : G) (ops : List EdgeUpdate) (add : Bool) : Finset ℕ :=
  ((finalOps g ops add).map (opKey g)).toFinset

/-- A key is final when a kept operation has it. -/
theorem mem_finalKeys {ops : List EdgeUpdate} {add : Bool} {key : ℕ} :
    key ∈ finalKeys g ops add ↔
      ∃ op ∈ keepLast (finalEntry g) ops, op.add = add ∧ opKey g op = key := by
  unfold finalKeys finalOps
  simp only [List.mem_toFinset, List.mem_map, List.mem_reverse, List.mem_filter,
    decide_eq_true_eq, and_assoc]

/-- The arcs after a batch: those added last, and those from before that are not deleted last. -/
theorem mem_applyAll_iff {arcs : ArcSet} {u v : VertexId} (hne : u ≠ v) (ops : List EdgeUpdate) :
    (u, v) ∈ applyAll (isDirected g) arcs ops ↔ bfsEdgeKey g u v ∈ finalKeys g ops true ∨
      (u, v) ∈ arcs ∧ bfsEdgeKey g u v ∉ finalKeys g ops false := by
  have hlocates := @locates_finalEntry G _ g u v hne
  have hlast : ∀ add, bfsEdgeKey g u v ∈ finalKeys g ops add →
      present (applyAll (isDirected g) arcs ops) u v = add := fun add hmem => by
    obtain ⟨op, hop, rfl, hkey⟩ := mem_finalKeys.mp hmem
    rw [present_applyAll]
    exact hlocates.lastWrite_eq hop (writeOn_eq_add ((isSome_writeOn_iff hne op).mpr hkey)) _
  rw [← present_eq_true]
  by_cases hwritten : ∃ op ∈ ops, (writeOn (isDirected g) u v op).isSome
  · obtain ⟨kept, hkept, hsome⟩ := hlocates.exists_kept hwritten
    have hfinal : bfsEdgeKey g u v ∈ finalKeys g ops kept.add :=
      mem_finalKeys.mpr ⟨kept, hkept, rfl, (isSome_writeOn_iff hne kept).mp hsome⟩
    rw [hlast _ hfinal]
    cases hadd : kept.add with
    | true =>
      rw [hadd] at hfinal
      exact iff_of_true rfl (Or.inl hfinal)
    | false =>
      rw [hadd] at hfinal
      refine iff_of_false (by simp) fun hor => ?_
      rcases hor with htrue | ⟨-, hnot⟩
      · exact absurd ((hlast _ hfinal).symm.trans (hlast _ htrue)) (by simp)
      · exact hnot hfinal
  · have hunkept : ∀ add, bfsEdgeKey g u v ∉ finalKeys g ops add := fun add hmem => by
      obtain ⟨op, hop, -, hkey⟩ := mem_finalKeys.mp hmem
      obtain ⟨op', hop', k, hentry⟩ := exists_of_mem_keepLast hop
      cases hentry
      exact hwritten ⟨op, hop', (isSome_writeOn_iff hne op).mpr hkey⟩
    have hnone : ∀ op ∈ ops, writeOn (isDirected g) u v op = none := fun op hop =>
      Option.not_isSome_iff_eq_none.mp fun hsome => hwritten ⟨op, hop, hsome⟩
    rw [present_applyAll, lastWrite_of_forall_none hnone, present_eq_true]
    exact ⟨fun hmem => Or.inr ⟨hmem, hunkept false⟩,
      fun hor => (hor.resolve_left (hunkept true)).1⟩

/-- The arcs an edge offers are the arcs with its key. -/
theorem mem_offeredEdges {edge a : VertexId × VertexId} :
    a ∈ offeredEdges (isDirected g) edge ↔
      a.1 ≠ a.2 ∧ bfsEdgeKey g edge.1 edge.2 = bfsEdgeKey g a.1 a.2 := by
  obtain ⟨u, v⟩ := edge
  obtain ⟨x, y⟩ := a
  unfold offeredEdges bfsEdgeKey
  rw [edgeKey_eq_iff]
  dsimp only
  by_cases hloop : u = v
  · rw [if_pos hloop]
    refine iff_of_false List.not_mem_nil ?_
    rintro ⟨hne, ⟨rfl, rfl⟩ | ⟨-, rfl, rfl⟩⟩
    · exact hne hloop
    · exact hne hloop.symm
  · rw [if_neg hloop]
    cases isDirected g <;> simp only [Bool.false_eq_true, if_false, if_true, List.mem_cons,
      List.not_mem_nil, or_false, Prod.mk.injEq]
    · constructor
      · rintro (⟨rfl, rfl⟩ | ⟨rfl, rfl⟩)
        · exact ⟨hloop, Or.inl ⟨rfl, rfl⟩⟩
        · exact ⟨Ne.symm hloop, Or.inr ⟨trivial, rfl, rfl⟩⟩
      · rintro ⟨-, ⟨rfl, rfl⟩ | ⟨-, rfl, rfl⟩⟩
        · exact Or.inl ⟨rfl, rfl⟩
        · exact Or.inr ⟨rfl, rfl⟩
    · constructor
      · rintro ⟨rfl, rfl⟩
        exact ⟨hloop, Or.inl ⟨rfl, rfl⟩⟩
      · rintro ⟨-, ⟨rfl, rfl⟩ | ⟨hdirected, -, -⟩⟩
        · exact ⟨rfl, rfl⟩
        · exact Bool.noConfusion hdirected

/-- The arcs that the final operations offer are the arcs with their keys. -/
theorem mem_offered_finalOps {ops : List EdgeUpdate} {add : Bool} {a : VertexId × VertexId} :
    a ∈ ((finalOps g ops add).map opEdge).flatMap (offeredEdges (isDirected g)) ↔
      a.1 ≠ a.2 ∧ bfsEdgeKey g a.1 a.2 ∈ finalKeys g ops add := by
  unfold finalKeys
  simp only [List.mem_flatMap, List.mem_map, exists_exists_and_eq_and, mem_offeredEdges,
    List.mem_toFinset]
  constructor
  · rintro ⟨op, hop, hne, hkey⟩
    exact ⟨hne, op, hop, hkey⟩
  · rintro ⟨hne, op, hop, hkey⟩
    exact ⟨op, hop, hne, hkey⟩

/-- Deleted edges that the graph has name each arc once: their keys differ. -/
theorem nodup_offered_existing {ops : List EdgeUpdate} (keep : VertexId × VertexId → Bool) :
    ((((finalOps g ops false).map opEdge).filter keep).flatMap
      (offeredEdges (isDirected g))).Nodup := by
  have hkeys : ((finalOps g ops false).map (opKey g)).Nodup := by
    unfold finalOps
    rw [List.map_reverse, List.nodup_reverse]
    exact (nodup_opKey ops).sublist (List.filter_sublist.map _)
  have hpairs : ((finalOps g ops false).map opEdge).Pairwise fun e e' =>
      bfsEdgeKey g e.1 e.2 ≠ bfsEdgeKey g e'.1 e'.2 := by
    rw [List.pairwise_map]
    exact List.pairwise_map.mp hkeys
  refine List.nodup_flatMap.mpr ⟨fun edge _ => ?_, (hpairs.sublist List.filter_sublist).imp ?_⟩
  · unfold offeredEdges
    split
    · exact List.nodup_nil
    · rename_i hloop
      split
      · exact List.nodup_singleton _
      · refine List.nodup_cons.mpr ⟨fun hmem => hloop ?_, List.nodup_singleton _⟩
        exact congrArg Prod.fst (List.mem_singleton.mp hmem)
  · intro e e' hne a ha ha'
    exact hne ((mem_offeredEdges.mp ha).2.trans (mem_offeredEdges.mp ha').2.symm)

/-- The deletions of a batch are what the invalidation expects. -/
theorem Collected.deleting {bound : ℕ} {ops : List EdgeUpdate} {final : FinalUpdates}
    (h : Collected g bound ops final) {arcs : ArcSet} (hserves : Serves g arcs) :
    Deleting g arcs (final.deletions.filter fun (u, v) => GraphAccess.hasEdge g u v)
      final.deletionKeys (finalKeys g ops false) := by
  rw [h.deletions]
  refine ⟨nodup_offered_existing _, fun a => ?_, h.deletionKeys.contains⟩
  have hsame : ∀ u v, bfsEdgeKey g u v = bfsEdgeKey g a.1 a.2 → ((u, v) ∈ arcs ↔ a ∈ arcs) := by
    intro u v hkey
    unfold bfsEdgeKey at hkey
    rcases edgeKey_eq_iff.mp hkey with ⟨hu, hv⟩ | ⟨hdirected, hv, hu⟩
    · rw [hu, hv]
    · have hsymm := hserves.simple.undirected hdirected
      rw [hu, hv]
      exact ⟨hsymm a.2 a.1, hsymm a.1 a.2⟩
  simp only [List.mem_flatMap, List.mem_filter, List.mem_map, mem_offeredEdges, finalKeys,
    List.mem_toFinset, hserves.hasEdge, present_eq_true]
  constructor
  · rintro ⟨edge, ⟨⟨op, hop, rfl⟩, hmem⟩, hne, hkey⟩
    exact ⟨(hsame _ _ hkey).mp hmem, op, hop, hkey⟩
  · rintro ⟨hmem, op, hop, hkey⟩
    refine ⟨opEdge op, ⟨⟨op, hop, rfl⟩, (hsame _ _ hkey).mpr hmem⟩, fun hloop => ?_, hkey⟩
    refine hserves.simple.loopless a.1 ?_
    have hpair : a = (a.1, a.1) := Prod.ext rfl hloop.symm
    exact hpair ▸ hmem

end Collect

end VeloGraphX
