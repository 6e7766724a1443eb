import Mathlib
import VeloGraphX.Incremental.Bfs

/-!
# Incremental breadth-first distances: propagation and recomputation

Distances and the count of reachable vertices are kept together: lowering a distance keeps
the count right. Propagating decreases from a queue relaxes every arc that was unrelaxed only
because its source was queued, and recomputation, whose queue is ordered by distance, ends in
the exact distances.
-/

namespace VeloGraphX

open FuelLoop PointUpdate ShortestPath GraphAccess

/-- The labelling of the distances. -/
def Levels.labels (levels : Levels) : VertexId → ℕ := label unreachable levels.dist

/-- One distance for each vertex, none beyond `unreachable`, and the right count. -/
structure Leveled (n : ℕ) (levels : Levels) : Prop where
  length_eq : levels.dist.length = n
  le : ∀ x, levels.labels x ≤ unreachable
  counted : levels.reachableCount = {x | levels.labels x ≠ unreachable}.ncard

/-- Every set of ids is counted without overflow. -/
theorem ncard_le (s : Set VertexId) : s.ncard ≤ 2 ^ 32 := by
  refine (Set.ncard_le_ncard (Set.subset_univ s)).trans_eq ?_
  rw [Set.ncard_univ, Nat.card_eq_fintype_card, Fintype.card_fin]

/-- A stored distance is the label of its vertex. -/
theorem Leveled.getD_eq {n : ℕ} {levels : Levels} (h : Leveled n levels) {v : VertexId}
    (hv : v.val < n) : levels.dist.getD v 0 = levels.labels v :=
  (label_eq_getD unreachable (h.length_eq.symm ▸ hv) 0).symm

/-- Lowering a distance updates one label and keeps the count right. -/
theorem Leveled.lower {n : ℕ} {levels : Levels} (h : Leveled n levels) {v : VertexId}
    (hv : v.val < n) {distance : ℕ} (hlt : distance < levels.labels v) :
    Leveled n (levels.lower v distance) ∧
      (levels.lower v distance).labels = Function.update levels.labels v distance := by
  have hlabels : (levels.lower v distance).labels = Function.update levels.labels v distance :=
    label_set unreachable (h.length_eq.symm ▸ hv) distance
  have hreached : {x | (levels.lower v distance).labels x ≠ unreachable} =
      insert v {x | levels.labels x ≠ unreachable} := by
    rw [hlabels]
    refine Set.ext fun x => ?_
    by_cases hx : x = v
    · subst hx
      simpa using (hlt.trans_le (h.le x)).ne
    · simp [hx]
  refine ⟨⟨List.length_set.trans h.length_eq, fun x => ?_, ?_⟩, hlabels⟩
  · rw [hlabels]
    by_cases hx : x = v
    · subst hx
      rw [Function.update_self]
      exact hlt.le.trans (h.le x)
    · rw [Function.update_of_ne hx]
      exact h.le x
  · rw [hreached]
    unfold Levels.lower
    dsimp only
    rw [h.getD_eq hv]
    by_cases hfresh : levels.labels v = unreachable
    · have hnot : v ∉ {x | levels.labels x ≠ unreachable} := fun hmem => hmem hfresh
      have hle := ncard_le {x | levels.labels x ≠ unreachable}
      rw [if_pos hfresh, Set.ncard_insert_of_notMem hnot, h.counted]
      exact Nat.mod_eq_of_lt (by omega)
    · rw [if_neg hfresh, Set.insert_eq_of_mem (show v ∈ {x | levels.labels x ≠ unreachable} from hfresh)]
      exact h.counted

section Propagation

/-- The labelling of a state with a queue. -/
def queueLabels (state : Levels × List VertexId) : VertexId → ℕ := state.1.labels

/-- A vertex that is still to be scanned. -/
def InQueue (state : Levels × List VertexId) (x : VertexId) : Prop := x ∈ state.2

/-- Lowering a label over an arc and queueing the target relaxes the arc. -/
theorem relaxes_lower {n : ℕ} {u v : VertexId} {levels : Levels} {q : List VertexId}
    (h : Leveled n levels) (hv : v.val < n) (hlt : levels.labels u + 1 < levels.labels v) :
    Leveled n (levels.lower v (levels.labels u + 1)) ∧
      Relaxes queueLabels InQueue (levels, q) (levels.lower v (levels.labels u + 1), q ++ [v])
        u 1 v := by
  obtain ⟨hleveled, hlabels⟩ := h.lower hv hlt
  refine ⟨hleveled, hlabels.trans ?_, fun x hx => ?_, fun _ => ?_⟩
  · unfold relax queueLabels
    rw [min_eq_right hlt.le]
  · exact List.mem_append_left _ hx
  · exact List.mem_append_right _ (List.mem_singleton_self v)

/-- A relaxed arc needs no step. -/
theorem relaxes_refl {σ : Type} {labels : σ → VertexId → ℕ} {pending : σ → VertexId → Prop}
    {state : σ} {u v : VertexId} (h : labels state v ≤ labels state u + 1) :
    Relaxes labels pending state state u 1 v :=
  ⟨(relax_eq_self h).symm, fun _ => id, fun hlt => absurd hlt (not_lt.mpr h)⟩

/-- Sums of a finite distance and one do not wrap. -/
theorem addU32_one {distance : ℕ} (h : distance < unreachable) :
    addU32 distance 1 = distance + 1 := by
  unfold addU32 unreachable at *
  omega

/-- What stays true while the arcs of a reached vertex are relaxed. -/
structure Reached (n : ℕ) (u : VertexId) (state : Levels × List VertexId) : Prop where
  leveled : Leveled n state.1
  source_lt : u.val < n
  finite : queueLabels state u < unreachable

/-- The callback of `propagate_decreases` relaxes one arc. -/
theorem propagateArc_spec {n : ℕ} {u v : VertexId} {state : Levels × List VertexId}
    (h : Reached n u state) (hv : v.val < n) :
    Reached n u (propagateArc u state v) ∧
      Relaxes queueLabels InQueue state (propagateArc u state v) u 1 v := by
  obtain ⟨levels, q⟩ := state
  have hfinite : levels.labels u < unreachable := h.finite
  unfold propagateArc
  dsimp only
  rw [h.leveled.getD_eq h.source_lt, h.leveled.getD_eq hv, addU32_one hfinite]
  split
  · rename_i hlt
    obtain ⟨hleveled, hrelaxes⟩ := @relaxes_lower n u v levels q h.leveled hv hlt
    refine ⟨⟨hleveled, h.source_lt, ?_⟩, hrelaxes⟩
    rw [hrelaxes.label_eq, relax_source]
    exact hfinite
  · rename_i hnot
    exact ⟨h, relaxes_refl (not_lt.mp hnot)⟩

/-- Relaxing pays for a new queue entry by a lower distance. -/
theorem propagateArc_measure (u : VertexId) (state : Levels × List VertexId) (v : VertexId) :
    2 * (propagateArc u state v).1.dist.sum + (propagateArc u state v).2.length ≤
      2 * state.1.dist.sum + state.2.length := by
  obtain ⟨levels, q⟩ := state
  unfold propagateArc
  dsimp only
  split
  · rename_i hlt
    have hv : v.val < levels.dist.length := by
      by_contra hout
      rw [List.getD_eq_default _ _ (not_lt.mp hout)] at hlt
      exact Nat.not_lt_zero _ hlt
    have hsum := sum_set hv (addU32 (levels.dist.getD u 0) 1)
    simp only [Levels.lower, List.length_append, List.length_singleton]
    omega
  · exact le_rfl

variable {G : Type} [GraphAccess G]

/-- Every turn of `propagate_decreases` on a queue that is not empty makes progress. -/
theorem propagateTurn_measure (g : G) (levels : Levels) (u : VertexId) (q : List VertexId) :
    2 * (propagateTurn g (levels, u :: q)).1.dist.sum +
        (propagateTurn g (levels, u :: q)).2.length <
      2 * levels.dist.sum + (u :: q).length := by
  have hfold : ∀ (targets : List VertexId) (state : Levels × List VertexId),
      2 * (targets.foldl (propagateArc u) state).1.dist.sum +
          (targets.foldl (propagateArc u) state).2.length ≤
        2 * state.1.dist.sum + state.2.length := by
    intro targets
    induction targets with
    | nil => exact fun _ => le_rfl
    | cons v rest ih => exact fun state => (ih _).trans (propagateArc_measure u state v)
  unfold propagateTurn
  dsimp only
  split
  · simp only [List.length_cons]
    omega
  · have := hfold (forEachNeighbor g u) (levels, q)
    simp only [List.length_cons] at this ⊢
    omega

variable {arcs : ArcSet} {start : Set VertexId} {need : VertexId → ℕ → VertexId → Prop}

/-- One turn of `propagate_decreases` keeps every unrelaxed arc in the queue. -/
theorem propagateTurn_spec {g : G} (hserves : Serves g arcs)
    (hneed : ∀ u w v, need u w v → unitArc arcs u w v) {levels : Levels} {u : VertexId}
    {q : List VertexId} (hleveled : Leveled (vertexCount g) levels)
    (hjust : Justified start (unitArc arcs) unreachable (queueLabels (levels, u :: q)))
    (hrel : Relaxed need (fun x _ => InQueue (levels, u :: q) x) (queueLabels (levels, u :: q))) :
    Leveled (vertexCount g) (propagateTurn g (levels, u :: q)).1 ∧
      Justified start (unitArc arcs) unreachable
        (queueLabels (propagateTurn g (levels, u :: q))) ∧
      Relaxed need (fun x _ => InQueue (propagateTurn g (levels, u :: q)) x)
        (queueLabels (propagateTurn g (levels, u :: q))) := by
  have hskip : ∀ hnone : ∀ w v, ¬ need u w v ∨ levels.labels v ≤ levels.labels u + w,
      Relaxed need (fun x _ => InQueue (levels, q) x) (queueLabels (levels, q)) := by
    intro hnone x w y hxy
    rcases hrel x w y hxy with hqueued | hle
    · rcases List.mem_cons.mp hqueued with rfl | hmem
      · exact Or.inr ((hnone w y).resolve_left (not_not.mpr hxy))
      · exact Or.inl hmem
    · exact Or.inr hle
  have hrest : Relaxed need (fun x _ => InQueue (levels, q) x ∨ x = u)
      (queueLabels (levels, q)) :=
    hrel.mono fun x _ hx => (List.mem_cons.mp hx).symm
  unfold propagateTurn
  dsimp only
  by_cases hout : u.val < vertexCount g
  · rw [hleveled.getD_eq hout]
    split
    · rename_i hfar
      refine ⟨hleveled, hjust, hskip fun w v => Or.inr ?_⟩
      rw [hfar]
      exact (hleveled.le v).trans (Nat.le_add_right _ _)
    · rename_i hnear
      have hwithin : ∀ v ∈ forEachNeighbor g u, v.val < vertexCount g := fun v hv =>
        (hserves.simple.within u v ((hserves.mem_neighbor u v).mp hv)).2
      obtain ⟨hreached, hjust', hrel'⟩ := scan queueLabels InQueue
        (Reached (vertexCount g) u) (propagateArc u) u (fun _ => 1) id
        (fun s hs v hv => propagateArc_spec hs (hwithin v hv))
        (fun v hv => ⟨rfl, (hserves.mem_neighbor u v).mp hv⟩)
        (fun w v hmust => ⟨v, (hserves.mem_neighbor u v).mpr (hneed u w v hmust).2, rfl⟩)
        (fun v _ w hmust => (hneed u w v hmust).1) (levels, q)
        ⟨hleveled, hout, lt_of_le_of_ne (hleveled.le u) hnear⟩ hjust hrest
      exact ⟨hreached.leveled, hjust', hrel'⟩
  · -- an id beyond the vertices has no arcs
    have hnone : ∀ w v, ¬ need u w v ∨ levels.labels v ≤ levels.labels u + w := fun w v =>
      Or.inl fun hmust => hout (hserves.simple.within u v (hneed u w v hmust).2).1
    have hnil : forEachNeighbor g u = [] := by
      refine List.eq_nil_iff_forall_not_mem.mpr fun v hv => hout ?_
      exact (hserves.simple.within u v ((hserves.mem_neighbor u v).mp hv)).1
    rw [hnil, List.foldl_nil, ite_self]
    exact ⟨hleveled, hjust, hskip hnone⟩

/-- From justified labels, where an arc that must be relaxed is unrelaxed only if its source
is queued, `propagate_decreases` ends in justified labels that relax all these arcs. -/
theorem propagateDecreases_spec {g : G} (hserves : Serves g arcs)
    (hneed : ∀ u w v, need u w v → unitArc arcs u w v) {levels : Levels} {q : List VertexId}
    (hleveled : Leveled (vertexCount g) levels)
    (hjust : Justified start (unitArc arcs) unreachable levels.labels)
    (hrel : Relaxed need (fun x _ => x ∈ q) levels.labels) :
    Returns (fun fuel => propagateDecreases fuel g levels q) fun levels =>
      Leveled (vertexCount g) levels ∧ Justified start (unitArc arcs) unreachable levels.labels ∧
        Relaxed need (fun _ _ => False) levels.labels := by
  refine Returns.map ((returns_while
    (fun m state => m = 2 * state.1.dist.sum + state.2.length ∧
      Leveled (vertexCount g) state.1 ∧
      Justified start (unitArc arcs) unreachable (queueLabels state) ∧
      Relaxed need (fun x _ => InQueue state x) (queueLabels state))
    (fun m state hinv hgo => Returns.pure ?_) (s := (levels, q))
    ⟨rfl, hleveled, hjust, hrel⟩).mono ?_)
  · obtain ⟨levels, q⟩ := state
    obtain ⟨rfl, hleveled, hjust, hrel⟩ := hinv
    cases q with
    | nil => exact absurd hgo (by simp)
    | cons u q =>
      exact ⟨_, propagateTurn_measure g levels u q, rfl,
        propagateTurn_spec hserves hneed hleveled hjust hrel⟩
  · rintro ⟨levels, q⟩ ⟨⟨m, -, hleveled, hjust, hrel⟩, hexit⟩
    have hnil : q = [] := by simpa using hexit
    subst hnil
    exact ⟨hleveled, hjust, hrel.mono fun x _ hx => List.not_mem_nil hx⟩

end Propagation

section Recompute

/-- The labelling of a state of `recompute`. -/
def visitLabels (state : List ℕ × List VertexId) : VertexId → ℕ := label unreachable state.1

/-- What `recompute` keeps: the queue holds the reached vertices, each once, in the order of
their distances, and no distance exceeds its vertex's position in the queue. -/
structure Frontier (n : ℕ) (state : List ℕ × List VertexId) : Prop where
  length_eq : state.1.length = n
  nodup : state.2.Nodup
  mem_iff : ∀ x, x ∈ state.2 ↔ visitLabels state x ≠ unreachable
  ordered : state.2.Pairwise fun x y => visitLabels state x ≤ visitLabels state y
  le_index : ∀ i x, state.2[i]? = some x → visitLabels state x ≤ i

/-- Reached ids are vertices, so the queue is no longer than the graph is large. -/
theorem Frontier.length_le {n : ℕ} {state : List ℕ × List VertexId} (h : Frontier n state) :
    state.2.length ≤ n := by
  have hwithin : ∀ x ∈ state.2, x.val < n := fun x hx => by
    by_contra hout
    exact (h.mem_iff x).mp hx (label_of_le (h.length_eq.trans_le (not_lt.mp hout)))
  have hcard := Finset.card_le_card_of_injOn (s := state.2.toFinset) (t := Finset.range n) Fin.val
    (fun x hx => by simpa using hwithin x (List.mem_toFinset.mp hx))
    (fun x _ y _ heq => Fin.ext heq)
  rwa [List.toFinset_card_of_nodup h.nodup, Finset.card_range] at hcard

section Push

variable {n : ℕ} {dist : List ℕ} {queue : List VertexId} {v : VertexId} {d : ℕ}

/-- The labels after a vertex is reached. -/
theorem visitLabels_push (hv : v.val < dist.length) : visitLabels (dist.set v d, queue ++ [v]) =
    Function.update (visitLabels (dist, queue)) v d :=
  label_set unreachable hv _

/-- The reached vertex. -/
theorem visitLabels_push_self (hv : v.val < dist.length) :
    visitLabels (dist.set v d, queue ++ [v]) v = d := by
  rw [visitLabels_push hv, Function.update_self]

/-- Vertices in the queue keep their labels. -/
theorem visitLabels_push_of_mem (hv : v.val < dist.length) (hnew : v ∉ queue) {x : VertexId}
    (hx : x ∈ queue) :
    visitLabels (dist.set v d, queue ++ [v]) x = visitLabels (dist, queue) x := by
  rw [visitLabels_push hv, Function.update_of_ne]
  rintro rfl
  exact hnew hx

/-- A vertex is reached that is at least as far as those in the queue. -/
theorem Frontier.push (h : Frontier n (dist, queue)) (hv : v.val < n) (hnew : v ∉ queue)
    (hfar : ∀ x ∈ queue, visitLabels (dist, queue) x ≤ d) (hd : d ≤ queue.length)
    (hfinite : d ≠ unreachable) : Frontier n (dist.set v d, queue ++ [v]) := by
  have hv' : v.val < dist.length := hv.trans_eq h.length_eq.symm
  refine ⟨List.length_set.trans h.length_eq, ?_, fun x => ?_, ?_, fun i x hx => ?_⟩
  · exact List.nodup_append'.mpr ⟨h.nodup, List.nodup_singleton v, by simpa using hnew⟩
  · by_cases hxv : x = v
    · rw [hxv, visitLabels_push_self hv']
      exact iff_of_true (by simp) hfinite
    · rw [visitLabels_push hv', Function.update_of_ne hxv, ← h.mem_iff x]
      simp [hxv]
  · refine List.pairwise_append.mpr ⟨?_, List.pairwise_singleton _ _, fun x hx y hy => ?_⟩
    · refine h.ordered.imp_of_mem fun hx hy hle => ?_
      rwa [visitLabels_push_of_mem hv' hnew hx, visitLabels_push_of_mem hv' hnew hy]
    · rw [List.mem_singleton.mp hy, visitLabels_push_self hv', visitLabels_push_of_mem hv' hnew hx]
      exact hfar x hx
  · rw [List.getElem?_append] at hx
    split at hx
    · rw [visitLabels_push_of_mem hv' hnew (List.mem_of_getElem? hx)]
      exact h.le_index i x hx
    · obtain rfl : v = x := by
        have := List.mem_of_getElem? hx
        simpa [eq_comm] using this
      rw [visitLabels_push_self hv']
      omega

end Push

/-- What stays true while the arcs of the vertex at the head are visited: the distances in the
queue reach at most one further. -/
structure Visiting (n head : ℕ) (u : VertexId) (state : List ℕ × List VertexId) : Prop
    extends Frontier n state where
  at_head : state.2[head]? = some u
  near : ∀ x ∈ state.2, visitLabels state x ≤ visitLabels state u + 1

/-- The vertices behind the head are still to be scanned. -/
def Ahead (head : ℕ) (state : List ℕ × List VertexId) (x : VertexId) : Prop :=
  x ∈ state.2.drop head

/-- The head stays where it is. -/
theorem Visiting.push {n head d : ℕ} {u v : VertexId} {dist : List ℕ} {queue : List VertexId}
    (h : Visiting n head u (dist, queue)) (hv : v.val < n) (hnew : v ∉ queue)
    (hfrontier : Frontier n (dist.set v d, queue ++ [v]))
    (hd : d = visitLabels (dist, queue) u + 1) :
    Visiting n head u (dist.set v d, queue ++ [v]) := by
  have hv' : v.val < dist.length := hv.trans_eq h.length_eq.symm
  have hhead : head < queue.length := (List.getElem?_eq_some_iff.mp h.at_head).1
  have hmemu : u ∈ queue := List.mem_of_getElem? h.at_head
  refine ⟨hfrontier, ?_, fun x hx => ?_⟩
  · rw [List.getElem?_append_left hhead]
    exact h.at_head
  · rw [visitLabels_push_of_mem hv' hnew hmemu]
    rcases List.mem_append.mp hx with hx | hx
    · rw [visitLabels_push_of_mem hv' hnew hx]
      exact h.near x hx
    · rw [List.mem_singleton.mp hx, visitLabels_push_self hv', hd]

/-- Visiting an arc relaxes it, because no reached vertex is further away than one step. -/
theorem visitArc_spec {n head : ℕ} {u v : VertexId} {state : List ℕ × List VertexId}
    (hn : n < unreachable) (h : Visiting n head u state) (hv : v.val < n) :
    Visiting n head u (visitArc u state v) ∧
      Relaxes visitLabels (Ahead (head + 1)) state (visitArc u state v) u 1 v := by
  obtain ⟨dist, queue⟩ := state
  have hlen : dist.length = n := h.length_eq
  have hhead : head < queue.length := (List.getElem?_eq_some_iff.mp h.at_head).1
  have hqueue : queue.length ≤ n := h.toFrontier.length_le
  have hindex : visitLabels (dist, queue) u ≤ head := h.le_index head u h.at_head
  have hu : u.val < n := by
    have hmem : u ∈ queue := List.mem_of_getElem? h.at_head
    by_contra hout
    exact (h.mem_iff u).mp hmem (label_of_le (hlen.trans_le (not_lt.mp hout)))
  have hcell : ∀ x : VertexId, x.val < n → dist.getD x 0 = visitLabels (dist, queue) x :=
    fun x hx => (label_eq_getD unreachable (hlen.symm ▸ hx) 0).symm
  unfold visitArc
  dsimp only
  rw [hcell v hv, hcell u hu, addU32_one (by omega)]
  split
  · rename_i hfresh
    have hnew : v ∉ queue := fun hmem => (h.mem_iff v).mp hmem hfresh
    have hfrontier := h.toFrontier.push hv hnew h.near (by omega) (by omega)
    have hdrop : (queue ++ [v]).drop (head + 1) = queue.drop (head + 1) ++ [v] :=
      List.drop_append_of_le_length hhead
    refine ⟨h.push hv hnew hfrontier rfl, ?_, fun x hx => ?_, fun _ => ?_⟩
    · rw [visitLabels_push (hlen.symm ▸ hv), relax, hfresh, min_eq_right (by omega)]
    · unfold Ahead
      rw [hdrop]
      exact List.mem_append_left _ hx
    · unfold Ahead
      rw [hdrop]
      exact List.mem_append_right _ (List.mem_singleton_self v)
  · rename_i hknown
    exact ⟨h, relaxes_refl (h.near v ((h.mem_iff v).mpr hknown))⟩

variable {G : Type} [GraphAccess G] {arcs : ArcSet} {g : G} {source : VertexId}

/-- The invariant of the loop in `recompute`. -/
structure Searching (g : G) (arcs : ArcSet) (source : VertexId)
    (state : (List ℕ × List VertexId) × ℕ) : Prop extends Frontier (vertexCount g) state.1 where
  near : ∀ u, state.1.2[state.2]? = some u →
    ∀ x ∈ state.1.2, visitLabels state.1 x ≤ visitLabels state.1 u + 1
  justified : Justified (startAt source (vertexCount g)) (unitArc arcs) unreachable
    (visitLabels state.1)
  relaxed : Relaxed (unitArc arcs) (fun x _ => Ahead state.2 state.1 x) (visitLabels state.1)

/-- The loop starts with the source alone. -/
theorem searching_start (hsource : source.val < vertexCount g) : Searching g arcs source
    (((List.replicate (vertexCount g) unreachable).set source 0, [source]), 0) := by
  have hlen : source.val < (List.replicate (vertexCount g) unreachable).length := by
    rwa [List.length_replicate]
  have hlabels : visitLabels ((List.replicate (vertexCount g) unreachable).set source 0,
      [source]) = Function.update (fun _ => unreachable) source 0 :=
    (label_set unreachable hlen 0).trans (by rw [label_replicate])
  have hother : ∀ x, x ≠ source → visitLabels ((List.replicate (vertexCount g)
      unreachable).set source 0, [source]) x = unreachable := fun x hx => by
    rw [hlabels, Function.update_of_ne hx]
  have hself : visitLabels ((List.replicate (vertexCount g) unreachable).set source 0, [source])
      source = 0 := by rw [hlabels, Function.update_self]
  have hfar : (0 : ℕ) ≠ unreachable := by decide
  refine ⟨⟨by simp, List.nodup_singleton source, fun x => ?_, List.pairwise_singleton _ _,
    fun i x hx => ?_⟩, fun u hu x hx => ?_, ⟨fun x => ?_, fun x hx => ?_, fun x hx => ?_⟩,
    fun x w y _ => ?_⟩
  · by_cases hx : x = source
    · rw [hx, hself]
      exact iff_of_true (List.mem_singleton_self _) hfar
    · rw [hother x hx]
      exact iff_of_false (by simpa using hx) (by simp)
  · rw [List.mem_singleton.mp (List.mem_of_getElem? hx), hself]
    exact Nat.zero_le i
  · rw [List.mem_singleton.mp hx, hself]
    exact Nat.zero_le _
  · by_cases hx : x = source
    · rw [hx, hself]
      exact Nat.zero_le _
    · exact (hother x hx).le
  · rw [hx.1, hself]
  · by_cases hxs : x = source
    · exact ⟨0, Nat.zero_le _, .nil ⟨hxs, hxs ▸ hsource⟩⟩
    · exact absurd (hother x hxs) hx.ne
  · by_cases hx : x = source
    · exact Or.inl (List.mem_singleton.mpr hx)
    · have hle : visitLabels ((List.replicate (vertexCount g) unreachable).set source 0, [source])
          y ≤ unreachable := by
        by_cases hy : y = source
        · rw [hy, hself]
          exact Nat.zero_le _
        · exact (hother y hy).le
      rw [hother x hx]
      exact Or.inr (hle.trans (Nat.le_add_right _ _))

/-- One turn scans the vertex at the head. -/
theorem Searching.turn (hserves : Serves g arcs) (hcount : vertexCount g < unreachable)
    {state : (List ℕ × List VertexId) × ℕ} (h : Searching g arcs source state)
    (hgo : state.2 < state.1.2.length) : Searching g arcs source (visitTurn g state) := by
  obtain ⟨⟨dist, queue⟩, head⟩ := state
  have hgo : head < queue.length := hgo
  have hat : queue[head]? = some (queue.getD head 0) := by
    rw [List.getElem?_eq_getElem hgo, List.getD_eq_getElem _ _ hgo]
  have hvisiting : Visiting (vertexCount g) head (queue.getD head 0) (dist, queue) :=
    ⟨h.toFrontier, hat, h.near _ hat⟩
  have hdrop : queue.drop head = queue.getD head 0 :: queue.drop (head + 1) := by
    rw [List.drop_eq_getElem_cons hgo, List.getD_eq_getElem _ _ hgo]
  have hrest : Relaxed (unitArc arcs)
      (fun x _ => Ahead (head + 1) (dist, queue) x ∨ x = queue.getD head 0)
      (visitLabels (dist, queue)) := by
    refine h.relaxed.mono fun x _ hx => ?_
    unfold Ahead at hx
    rw [hdrop] at hx
    exact (List.mem_cons.mp hx).symm
  have hwithin : ∀ v ∈ forEachNeighbor g (queue.getD head 0), v.val < vertexCount g :=
    fun v hv => (hserves.simple.within _ v ((hserves.mem_neighbor _ v).mp hv)).2
  obtain ⟨hafter, hjust, hrel⟩ := scan visitLabels (Ahead (head + 1))
    (Visiting (vertexCount g) head (queue.getD head 0)) (visitArc (queue.getD head 0))
    (queue.getD head 0) (fun _ => 1) id
    (fun s hs v hv => visitArc_spec hcount hs (hwithin v hv))
    (fun v hv => ⟨rfl, (hserves.mem_neighbor _ v).mp hv⟩)
    (fun w v harc => ⟨v, (hserves.mem_neighbor _ v).mpr harc.2, rfl⟩)
    (fun v _ w harc => harc.1) (dist, queue) hvisiting h.justified hrest
  unfold visitTurn
  dsimp only
  generalize (forEachNeighbor g (queue.getD head 0)).foldl (visitArc (queue.getD head 0))
    (dist, queue) = after at hafter hjust hrel ⊢
  refine ⟨hafter.toFrontier, fun u hu x hx => (hafter.near x hx).trans ?_, hjust, hrel⟩
  -- the next vertex is at least as far away as the one just scanned
  obtain ⟨hlt, hnext⟩ := List.getElem?_eq_some_iff.mp hu
  obtain ⟨hlt', hthis⟩ := List.getElem?_eq_some_iff.mp hafter.at_head
  have hpair := List.pairwise_iff_getElem.mp hafter.ordered head (head + 1) hlt' hlt
    (Nat.lt_succ_self head)
  rw [hthis] at hpair
  exact Nat.succ_le_succ (hpair.trans_eq (congrArg _ hnext))

/-- When the queue is exhausted, the distances are exact and counted by its length. -/
theorem Searching.finished {dist : List ℕ} {queue : List VertexId} {head : ℕ}
    (h : Searching g arcs source ((dist, queue), head)) (hexit : queue.length ≤ head) :
    Leveled (vertexCount g) ⟨dist, queue.length⟩ ∧
      Exact (startAt source (vertexCount g)) (unitArc arcs) unreachable (label unreachable dist) := by
  refine ⟨⟨h.length_eq, h.justified.le_cap, ?_⟩, h.justified.exact (h.relaxed.mono fun x _ hx => ?_)⟩
  · have hreached : {x | (Levels.mk dist queue.length).labels x ≠ unreachable} =
        (queue.toFinset : Set VertexId) := Set.ext fun x => by
      rw [List.coe_toFinset]
      exact (h.mem_iff x).symm
    rw [hreached, Set.ncard_coe_finset, List.toFinset_card_of_nodup h.nodup]
  · unfold Ahead at hx
    rw [List.drop_eq_nil_of_le hexit] at hx
    exact List.not_mem_nil hx

/-- Recomputation ends, in the exact distances and the right count, also when the source is
not a vertex. -/
theorem recomputeLevels_spec (hserves : Serves g arcs) (hcount : vertexCount g < unreachable)
    (source : VertexId) :
    Returns (fun fuel => recomputeLevels fuel g source) fun levels =>
      Leveled (vertexCount g) levels ∧
        Exact (startAt source (vertexCount g)) (unitArc arcs) unreachable levels.labels := by
  unfold recomputeLevels
  dsimp only
  split
  · rename_i hout
    have hblank := label_replicate unreachable (vertexCount g)
    refine Returns.pure ⟨⟨List.length_replicate, fun x => (congrFun hblank x).le, ?_⟩, ?_⟩
    · unfold Levels.labels
      rw [hblank]
      simp
    · unfold Levels.labels
      rw [hblank]
      refine Justified.exact ⟨fun _ => le_rfl, fun v hv => ?_, fun v hlt => absurd hlt (lt_irrefl _)⟩
        fun u w v _ => Or.inr (Nat.le_add_right _ _)
      exact absurd (hv.1 ▸ hv.2) (not_lt.mpr hout)
  · rename_i hin
    refine Returns.map ((returns_while
      (fun m state => m + state.2 = vertexCount g ∧ Searching g arcs source state)
      (fun m state hinv hgo => Returns.pure ?_)
      ⟨Nat.add_zero _, searching_start (not_le.mp hin)⟩).mono ?_)
    · have hgo := of_decide_eq_true hgo
      have hlt := hinv.2.toFrontier.length_le
      exact ⟨m - 1, by omega, by unfold visitTurn; dsimp only; omega, hinv.2.turn hserves hcount hgo⟩
    · rintro ⟨⟨dist, queue⟩, head⟩ ⟨⟨m, -, hsearching⟩, hexit⟩
      exact hsearching.finished (not_lt.mp (of_decide_eq_false hexit))

end Recompute

end VeloGraphX
