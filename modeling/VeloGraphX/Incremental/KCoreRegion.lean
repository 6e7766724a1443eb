import Mathlib
import VeloGraphX.Access.UndirectedGraph
import VeloGraphX.Incremental.KCore
import VeloGraphX.Lib.Peeling

/-!
# Marking and peeling a region

Marking from a seed only adds vertices, and every vertex it adds has all its neighbours marked.
Peeling a region that is closed under adjacency ends with the core numbers of its vertices:
every remaining vertex has an entry with its current degree in the heap, so the first entry that
is not stale is a vertex of least remaining degree.
-/

namespace VeloGraphX

open FuelLoop PointUpdate PriorityQueue Peeling ArcSet GraphAccess

/-- The marked vertices. -/
def markedSet (marked : List ℕ) : Set VertexId := {v | marked.getD v 0 ≠ 0}

/-- Marked vertices have a place in the array. -/
theorem lt_of_mem_markedSet {marked : List ℕ} {v : VertexId} (h : v ∈ markedSet marked) :
    v.val < marked.length := by
  by_contra hout
  exact h (List.getD_eq_default _ _ (not_lt.mp hout))

/-- Marking one more vertex. -/
theorem mem_markedSet_set {marked : List ℕ} {u v : VertexId} (hu : u.val < marked.length) :
    v ∈ markedSet (marked.set u 1) ↔ v = u ∨ v ∈ markedSet marked := by
  change (marked.set u 1).getD v 0 ≠ 0 ↔ _
  rw [getD_set hu, Fin.ext_iff]
  by_cases hvu : v.val = u.val
  · rw [if_pos hvu]
    exact iff_of_true one_ne_zero (Or.inl hvu)
  · rw [if_neg hvu, or_iff_right hvu]
    rfl

/-- Marking one more vertex leaves one fewer to mark. -/
theorem count_zero_set {marked : List ℕ} {i : ℕ} (hi : i < marked.length)
    (hzero : marked.getD i 0 = 0) : (marked.set i 1).count 0 + 1 = marked.count 0 := by
  rw [List.getD_eq_getElem _ _ hi] at hzero
  have hmem : 0 ∈ marked := hzero ▸ List.getElem_mem hi
  have hpos := List.count_pos_iff.mpr hmem
  rw [List.count_set hi, hzero]
  simp only [BEq.rfl, if_true, Nat.one_ne_zero, beq_iff_eq, if_false]
  omega

/-- More vertices are marked, and those that are new have all their neighbours marked. -/
structure Spreads (arcs : ArcSet) (M M' : Set VertexId) : Prop where
  subset : M ⊆ M'
  closed : ∀ u ∈ M', u ∉ M → ∀ v, (u, v) ∈ arcs → v ∈ M'

/-- Marking nothing. -/
theorem Spreads.refl (arcs : ArcSet) (M : Set VertexId) : Spreads arcs M M :=
  ⟨subset_rfl, fun _ hu hnot => absurd hu hnot⟩

/-- Marking in two steps. -/
theorem Spreads.trans {arcs : ArcSet} {M M' M'' : Set VertexId} (h : Spreads arcs M M')
    (h' : Spreads arcs M' M'') : Spreads arcs M M'' := by
  refine ⟨h.subset.trans h'.subset, fun u hu hnot v harc => ?_⟩
  by_cases hmid : u ∈ M'
  · exact h'.subset (h.closed u hmid hnot v harc)
  · exact h'.closed u hu hmid v harc

namespace IncrementalKCore

variable {G : Type} [GraphAccess G] {g : G} {arcs : ArcSet} {n : ℕ}

section Marking

/-- A neighbour that is not marked yet. -/
theorem markNeighbor_of_fresh {marked : List ℕ} {u : VertexId} (queue : List VertexId)
    (hu : u.val < marked.length) (hzero : marked.getD u 0 = 0) :
    markNeighbor (marked, queue) u = (marked.set u 1, queue ++ [u]) :=
  if_pos (Bool.and_eq_true_iff.mpr ⟨decide_eq_true hu, decide_eq_true hzero⟩)

/-- A neighbour that is marked already. -/
theorem markNeighbor_of_marked {marked : List ℕ} {u : VertexId} (queue : List VertexId)
    (hmarked : marked.getD u 0 ≠ 0) : markNeighbor (marked, queue) u = (marked, queue) :=
  if_neg fun hand => hmarked (of_decide_eq_true (Bool.and_eq_true_iff.mp hand).2)

/-- What marking the neighbours of a vertex does to the marks and to the queue. -/
structure MarksNeighbors (list : List VertexId) (state state' : List ℕ × List VertexId) :
    Prop where
  length_eq : state'.1.length = state.1.length
  marked : ∀ v, v ∈ markedSet state'.1 ↔ v ∈ markedSet state.1 ∨ v ∈ list
  queued : ∀ v, v ∈ markedSet state'.1 → v ∉ markedSet state.1 → v ∈ state'.2
  kept : ∀ v ∈ state.2, v ∈ state'.2
  measure : state'.1.count 0 + state'.2.length = state.1.count 0 + state.2.length

/-- Marking the neighbours of a vertex. -/
theorem foldl_markNeighbor (list : List VertexId) (state : List ℕ × List VertexId)
    (hwithin : ∀ v ∈ list, v.val < state.1.length) :
    MarksNeighbors list state (list.foldl markNeighbor state) := by
  induction list generalizing state with
  | nil => exact ⟨rfl, fun v => (or_iff_left List.not_mem_nil).symm,
      fun v hv hnot => absurd hv hnot, fun v => id, rfl⟩
  | cons u rest ih =>
    obtain ⟨marked, queue⟩ := state
    have hu : u.val < marked.length := hwithin u List.mem_cons_self
    rw [List.foldl_cons]
    by_cases hzero : marked.getD u 0 = 0
    · rw [markNeighbor_of_fresh queue hu hzero]
      have hrest := ih (marked.set u 1, queue ++ [u]) fun v hv =>
        (hwithin v (List.mem_cons_of_mem _ hv)).trans_eq List.length_set.symm
      have hmeasure := count_zero_set hu hzero
      refine ⟨hrest.length_eq.trans List.length_set, fun v => ?_, fun v hv hnot => ?_,
        fun v hv => hrest.kept v (List.mem_append_left _ hv), ?_⟩
      · rw [hrest.marked, mem_markedSet_set hu, List.mem_cons]
        tauto
      · by_cases hvu : v = u
        · exact hrest.kept v (List.mem_append_right _ (List.mem_singleton.mpr hvu))
        · refine hrest.queued v hv fun hold => ?_
          exact ((mem_markedSet_set hu).mp hold).elim hvu hnot
      · have hlength := hrest.measure
        simp only [List.length_append, List.length_singleton] at hlength
        dsimp only
        omega
    · rw [markNeighbor_of_marked queue hzero]
      have hrest := ih (marked, queue) fun v hv => hwithin v (List.mem_cons_of_mem _ hv)
      refine ⟨hrest.length_eq, fun v => ?_, hrest.queued, hrest.kept, hrest.measure⟩
      rw [hrest.marked, List.mem_cons]
      have hmarked : v = u → v ∈ markedSet marked := fun heq => heq ▸ hzero
      tauto

/-- A state of the loop of `mark_component`: vertices whose neighbours may not be marked yet wait
in the queue. -/
structure Spreading (arcs : ArcSet) (n : ℕ) (M : Set VertexId) (seed : VertexId)
    (state : List ℕ × List VertexId) : Prop where
  length_eq : state.1.length = n
  seed : seed ∈ markedSet state.1
  subset : M ⊆ markedSet state.1
  closed : ∀ u ∈ markedSet state.1, u ∉ M →
    u ∈ state.2 ∨ ∀ v, (u, v) ∈ arcs → v ∈ markedSet state.1

/-- One turn of the loop of `mark_component`. -/
theorem Spreading.front (hserves : Serves g arcs) (hcount : vertexCount g = n)
    {M : Set VertexId} {seed u : VertexId} {marked : List ℕ} {queue : List VertexId}
    (h : Spreading arcs n M seed (marked, u :: queue)) :
    Spreading arcs n M seed (markFront g (marked, u :: queue)) ∧
      (markFront g (marked, u :: queue)).1.count 0 + (markFront g (marked, u :: queue)).2.length <
        marked.count 0 + (u :: queue).length := by
  have harc := hserves.mem_neighbor u
  have hfold := foldl_markNeighbor (forEachNeighbor g u) (marked, queue) fun v hv => by
    have hlt := (hserves.simple.within u v ((harc v).mp hv)).2
    rw [hcount] at hlt
    exact hlt.trans_eq h.length_eq.symm
  change Spreading arcs n M seed ((forEachNeighbor g u).foldl markNeighbor (marked, queue)) ∧
    ((forEachNeighbor g u).foldl markNeighbor (marked, queue)).1.count 0 +
      ((forEachNeighbor g u).foldl markNeighbor (marked, queue)).2.length < _
  generalize (forEachNeighbor g u).foldl markNeighbor (marked, queue) = state at hfold ⊢
  have hgrows : markedSet marked ⊆ markedSet state.1 := fun v hv => (hfold.marked v).mpr (Or.inl hv)
  refine ⟨⟨hfold.length_eq.trans h.length_eq, hgrows h.seed, h.subset.trans hgrows,
    fun w hw hnot => ?_⟩, ?_⟩
  · by_cases hwu : w = u
    · right
      intro v hwv
      exact (hfold.marked v).mpr (Or.inr ((harc v).mpr (hwu ▸ hwv)))
    · by_cases hold : w ∈ markedSet marked
      · rcases h.closed w hold hnot with hqueued | hneighbors
        · left
          exact hfold.kept w ((List.mem_cons.mp hqueued).resolve_left hwu)
        · exact Or.inr fun v hwv => hgrows (hneighbors v hwv)
      · exact Or.inl (hfold.queued w hw hold)
  · have hmeasure := hfold.measure
    rw [List.length_cons]
    dsimp only at hmeasure
    omega

/-- `mark_component` marks its seed, and the neighbours of everything it marks. -/
theorem markComponent_spec (hserves : Serves g arcs) (hcount : vertexCount g = n)
    {marked : List ℕ} (hlength : marked.length = n) {seed : VertexId} (hseed : seed.val < n) :
    Returns (fun fuel => markComponent g fuel seed marked) fun marked' =>
      marked'.length = n ∧ seed ∈ markedSet marked' ∧
        Spreads arcs (markedSet marked) (markedSet marked') := by
  unfold markComponent
  have hcond : (decide (n ≤ seed.val) || decide (n ≤ seed.val) ||
      decide (marked.getD seed 0 ≠ 0)) = true ↔ marked.getD seed 0 ≠ 0 := by
    rw [decide_eq_false (not_le.mpr hseed), Bool.or_false, Bool.false_or, decide_eq_true_eq]
  simp only [hcount, hlength, hcond]
  by_cases hmarked : marked.getD seed 0 ≠ 0
  · simp only [if_pos hmarked]
    exact Returns.pure ⟨hlength, hmarked, Spreads.refl _ _⟩
  simp only [if_neg hmarked]
  have hlt : seed.val < marked.length := hlength.symm ▸ hseed
  have hstart : Spreading arcs n (markedSet marked) seed (marked.set seed 1, [seed]) := by
    refine ⟨List.length_set.trans hlength, (mem_markedSet_set hlt).mpr (Or.inl rfl),
      fun v hv => (mem_markedSet_set hlt).mpr (Or.inr hv), fun u hu hnot => Or.inl ?_⟩
    exact List.mem_singleton.mpr (((mem_markedSet_set hlt).mp hu).resolve_right hnot)
  refine Returns.map ((returns_while (fun m state => m = state.1.count 0 + state.2.length ∧
    Spreading arcs n (markedSet marked) seed state) (fun m state hinv hqueue => ?_)
    ⟨rfl, hstart⟩).mono fun state hstate => ?_)
  · obtain ⟨cells, queue⟩ := state
    obtain ⟨rfl, hspreading⟩ := hinv
    cases queue with
    | nil => exact absurd hqueue (by simp)
    | cons u queue =>
      obtain ⟨hnext, hmeasure⟩ := hspreading.front hserves hcount
      exact Returns.pure ⟨_, hmeasure, rfl, hnext⟩
  · obtain ⟨⟨m, -, hspreading⟩, hempty⟩ := hstate
    have hnil : state.2 = [] := by simpa using hempty
    refine ⟨hspreading.length_eq, hspreading.seed, hspreading.subset, fun u hu hnot => ?_⟩
    refine (hspreading.closed u hu hnot).resolve_left ?_
    rw [hnil]
    exact List.not_mem_nil

/-- An end of an operation that is a vertex becomes marked. -/
theorem markEnd_spec (hserves : Serves g arcs) (hcount : vertexCount g = n) {marked : List ℕ}
    (hlength : marked.length = n) (seed : VertexId) :
    Returns (fun fuel =>
      if seed < vertexCount g then markComponent g fuel seed marked else some marked)
      fun marked' => marked'.length = n ∧ (seed.val < n → seed ∈ markedSet marked') ∧
        Spreads arcs (markedSet marked) (markedSet marked') := by
  rw [hcount]
  by_cases hseed : seed.val < n
  · simp only [if_pos hseed]
    refine (markComponent_spec hserves hcount hlength hseed).mono fun marked' h => ?_
    exact ⟨h.1, fun _ => h.2.1, h.2.2⟩
  · simp only [if_neg hseed]
    exact Returns.pure ⟨hlength, fun hlt => absurd hlt hseed, Spreads.refl _ _⟩

/-- All ends of the operations of a batch that are vertices become marked. -/
theorem markAllEnds_spec (hserves : Serves g arcs) (hcount : vertexCount g = n) {marked : List ℕ}
    (hlength : marked.length = n) (ops : List EdgeUpdate) :
    Returns (fun fuel => foldRun (markEnds g fuel) ops marked) fun marked' =>
      marked'.length = n ∧ Spreads arcs (markedSet marked) (markedSet marked') ∧
        ∀ op ∈ ops, (op.src.val < n → op.src ∈ markedSet marked') ∧
          (op.dst.val < n → op.dst ∈ markedSet marked') := by
  induction ops generalizing marked with
  | nil => exact Returns.pure ⟨hlength, Spreads.refl _ _, fun op hop => absurd hop List.not_mem_nil⟩
  | cons op rest ih =>
    have hends : Returns (fun fuel => markEnds g fuel marked op) fun marked' =>
        marked'.length = n ∧ Spreads arcs (markedSet marked) (markedSet marked') ∧
          (op.src.val < n → op.src ∈ markedSet marked') ∧
          (op.dst.val < n → op.dst ∈ markedSet marked') := by
      refine (markEnd_spec hserves hcount hlength op.src).bind fun first hfirst => ?_
      obtain ⟨hfirst, hsrc, hspread⟩ := hfirst
      refine (markEnd_spec hserves hcount hfirst op.dst).mono fun second hsecond => ?_
      obtain ⟨hsecond, hdst, hspread'⟩ := hsecond
      exact ⟨hsecond, hspread.trans hspread', fun hlt => hspread'.subset (hsrc hlt), hdst⟩
    refine hends.bind fun next hnext => ?_
    obtain ⟨hnext, hspread, hop⟩ := hnext
    refine (ih hnext).mono fun last hlast => ⟨hlast.1, hspread.trans hlast.2.1, ?_⟩
    intro op' hop'
    rcases List.mem_cons.mp hop' with rfl | hrest
    · exact ⟨fun hlt => hlast.2.1.subset (hop.1 hlt), fun hlt => hlast.2.1.subset (hop.2 hlt)⟩
    · exact hlast.2.2 op' hrest

end Marking

section Peel

variable {affected : List ℕ}

/-- Adding one to a cell for every vertex of a list that satisfies a condition. -/
theorem foldl_addOne (list : List VertexId) (keep : VertexId → Bool) (u : VertexId)
    (degree : List ℕ) (hu : u.val < degree.length)
    (hfits : degree.getD u 0 + list.length < 2 ^ 32) :
    let degree' := list.foldl (fun degree v =>
      if keep v then degree.set u (addU32 (degree.getD u 0) 1) else degree) degree
    degree'.length = degree.length ∧
      degree'.getD u 0 = degree.getD u 0 + (list.filter keep).length ∧
      ∀ v : VertexId, v ≠ u → degree'.getD v 0 = degree.getD v 0 := by
  dsimp only
  induction list generalizing degree with
  | nil => exact ⟨rfl, rfl, fun v _ => rfl⟩
  | cons a rest ih =>
    rw [List.length_cons] at hfits
    rw [List.foldl_cons]
    by_cases hkeep : keep a = true
    · rw [if_pos hkeep, List.filter_cons_of_pos hkeep, List.length_cons]
      have hadd : addU32 (degree.getD u 0) 1 = degree.getD u 0 + 1 :=
        Nat.mod_eq_of_lt (by omega)
      have hcell : (degree.set u (addU32 (degree.getD u 0) 1)).getD u 0 = degree.getD u 0 + 1 := by
        rw [getD_set hu, if_pos rfl, hadd]
      obtain ⟨hlength, hread, hother⟩ := ih (degree.set u (addU32 (degree.getD u 0) 1))
        (hu.trans_eq List.length_set.symm) (by rw [hcell]; omega)
      refine ⟨hlength.trans List.length_set, ?_, fun v hv => ?_⟩
      · rw [hread, hcell]
        omega
      · rw [hother v hv, getD_set_ne fun heq => hv (Fin.ext heq)]
    · rw [if_neg hkeep, List.filter_cons_of_neg hkeep]
      exact ih degree hu (by omega)

/-- The neighbours that satisfy a condition are as many as the degree among them. -/
theorem length_filter_neighbors (hserves : Serves g arcs) (hundirected : Undirected arcs)
    {R : Set VertexId} {keep : VertexId → Bool} (hkeep : ∀ v, keep v = true ↔ v ∈ R)
    (u : VertexId) :
    ((forEachNeighbor g u).filter keep).length = degreeIn (graphOf arcs) R u := by
  have hset : {w | w ∈ R ∧ (graphOf arcs).Adj u w} =
      ↑((forEachNeighbor g u).filter keep).toFinset := by
    refine Set.ext fun w => ?_
    rw [List.coe_toFinset, Set.mem_ofPred_eq, Set.mem_ofPred_eq, List.mem_filter, hkeep,
      hserves.mem_neighbor, graphOf_adj hundirected hserves.simple.loopless]
    exact and_comm
  rw [degreeIn, hset, Set.ncard_coe_finset,
    List.toFinset_card_of_nodup ((hserves.nodup u).filter _)]

/-- A vertex has fewer neighbours than there are vertices. -/
theorem length_neighbors_le (hserves : Serves g arcs) (hcount : vertexCount g = n) (u : VertexId) :
    (forEachNeighbor g u).length ≤ n := by
  have hmap : ((forEachNeighbor g u).map Fin.val).Nodup :=
    (hserves.nodup u).map Fin.val_injective
  have hsub : (forEachNeighbor g u).map Fin.val ⊆ List.range n := fun i hi => by
    obtain ⟨v, hv, rfl⟩ := List.mem_map.mp hi
    have hlt := (hserves.simple.within u v ((hserves.mem_neighbor u v).mp hv)).2
    rw [hcount] at hlt
    exact List.mem_range.mpr hlt
  have hle := (List.subperm_of_subset hmap hsub).length_le
  rwa [List.length_map, List.length_range] at hle

/-- A state of the loop that fills the heap. -/
structure Seeding (arcs : ArcSet) (n : ℕ) (R : Set VertexId) (core : List ℕ) (i : ℕ)
    (state : PeelState) : Prop where
  core_length : state.core.length = n
  degree_length : state.degree.length = n
  removed_eq : state.removed = List.replicate n 0
  current_eq : state.currentCore = 0
  degree : ∀ v ∈ R, v.val < i → state.degree.getD v 0 = degreeIn (graphOf arcs) R v
  fresh : ∀ v : VertexId, i ≤ v.val → state.degree.getD v 0 = 0
  queued : ∀ v ∈ R, v.val < i → toLex (state.degree.getD v 0, v) ∈ state.heap
  within : ∀ item ∈ state.heap, (ofLex item).2 ∈ R
  outside : ∀ v, v ∉ R → state.core.getD v 0 = core.getD v 0

/-- One turn of the loop that fills the heap. -/
theorem Seeding.vertex {core : List ℕ} {state : PeelState} (hserves : Serves g arcs)
    (hundirected : Undirected arcs) (hcount : vertexCount g = n) (hn : n < 2 ^ 32)
    (haffected : affected.length = n) {u : VertexId} (hu : u.val < n)
    (h : Seeding arcs n (markedSet affected) core u.val state) :
    Seeding arcs n (markedSet affected) core (u.val + 1) (seedVertex g affected u state) := by
  have hcond : (decide (affected.length ≤ u.val) || decide (affected.getD u 0 = 0)) = true ↔
      u ∉ markedSet affected := by
    rw [haffected, decide_eq_false (not_le.mpr hu), Bool.false_or, decide_eq_true_eq]
    exact not_not.symm
  unfold seedVertex
  by_cases hR : u ∈ markedSet affected
  · rw [if_neg fun hout => hcond.mp hout hR]
    have hkeep : ∀ v : VertexId, (decide (v.val < affected.length) &&
        decide (affected.getD v 0 ≠ 0)) = true ↔ v ∈ markedSet affected := fun v => by
      rw [Bool.and_eq_true, decide_eq_true_eq, decide_eq_true_eq]
      exact ⟨And.right, fun hv => ⟨lt_of_mem_markedSet hv, hv⟩⟩
    have hzero := h.fresh u le_rfl
    have hle := length_neighbors_le hserves hcount u
    obtain ⟨hlength, hread, hother⟩ := foldl_addOne (forEachNeighbor g u)
      (fun v => decide (v.val < affected.length) && decide (affected.getD v 0 ≠ 0)) u state.degree
      (h.degree_length.symm ▸ hu) (by rw [hzero]; omega)
    rw [hzero, Nat.zero_add, length_filter_neighbors hserves hundirected hkeep] at hread
    dsimp only
    generalize (forEachNeighbor g u).foldl (fun degree (v : VertexId) =>
      if (decide (v.val < affected.length) && decide (affected.getD v 0 ≠ 0)) = true then
        degree.set u (addU32 (degree.getD u 0) 1) else degree) state.degree = degree
      at hlength hread hother ⊢
    refine ⟨List.length_set.trans h.core_length, hlength.trans h.degree_length, h.removed_eq,
      h.current_eq, fun v hv hlt => ?_, fun v hle' => ?_, fun v hv hlt => ?_, fun item hitem => ?_,
      fun v hv => ?_⟩
    · rcases lt_next_iff.mp hlt with hlt' | rfl
      · rw [hother v fun heq => absurd hlt' (heq ▸ lt_irrefl _)]
        exact h.degree v hv hlt'
      · exact hread
    · rw [hother v fun heq => absurd hle' (by rw [heq]; omega)]
      exact h.fresh v (by omega)
    · rcases lt_next_iff.mp hlt with hlt' | rfl
      · refine List.mem_cons_of_mem _ ?_
        dsimp only
        rw [hother v fun heq => absurd hlt' (heq ▸ lt_irrefl _)]
        exact h.queued v hv hlt'
      · exact List.mem_cons_self
    · rcases List.mem_cons.mp hitem with rfl | hold
      · exact hR
      · exact h.within item hold
    · rw [← h.outside v hv]
      exact getD_set_ne (fun heq => hv ((Fin.ext heq : v = u) ▸ hR)) _ _
  · rw [if_pos (hcond.mpr hR)]
    refine ⟨h.core_length, h.degree_length, h.removed_eq, h.current_eq, fun v hv hlt => ?_,
      fun v hle => h.fresh v (Nat.le_of_succ_le hle), fun v hv hlt => ?_, h.within, h.outside⟩
    · exact h.degree v hv ((lt_next_iff.mp hlt).resolve_right fun heq => hR (heq ▸ hv))
    · exact h.queued v hv ((lt_next_iff.mp hlt).resolve_right fun heq => hR (heq ▸ hv))

/-- The vertices of the region that have not been removed. -/
def remainingIn (R : Set VertexId) (removed : List ℕ) : Set VertexId :=
  {v | v ∈ R ∧ removed.getD v 0 = 0}

/-- Removing a vertex. -/
theorem remainingIn_set {R : Set VertexId} {removed : List ℕ} {u : VertexId}
    (hu : u.val < removed.length) :
    remainingIn R (removed.set u 1) = remainingIn R removed \ {u} := by
  refine Set.ext fun v => ?_
  change v ∈ R ∧ (removed.set u 1).getD v 0 = 0 ↔ (v ∈ R ∧ removed.getD v 0 = 0) ∧ v ≠ u
  rw [getD_set hu]
  by_cases hvu : v = u
  · rw [if_pos (congrArg Fin.val hvu)]
    exact iff_of_false (fun hand => one_ne_zero hand.2) fun hand => hand.2 hvu
  · rw [if_neg fun heq => hvu (Fin.ext heq)]
    exact (and_iff_left hvu).symm

/-- What the callback does for the neighbours of a removed vertex. -/
structure Lowers (S : Set VertexId) (list : List VertexId) (state state' : PeelState) : Prop where
  core_eq : state'.core = state.core
  removed_eq : state'.removed = state.removed
  current_eq : state'.currentCore = state.currentCore
  degree_length : state'.degree.length = state.degree.length
  lowered : ∀ v ∈ list, v ∈ S → state'.degree.getD v 0 = state.degree.getD v 0 - 1 ∧
    toLex (state'.degree.getD v 0, v) ∈ state'.heap
  kept : ∀ v : VertexId, v ∉ list ∨ v ∉ S → state'.degree.getD v 0 = state.degree.getD v 0
  heap_kept : ∀ item ∈ state.heap, item ∈ state'.heap
  pushed : ∀ item ∈ state'.heap, item ∈ state.heap ∨ (ofLex item).2 ∈ S
  heap_length : state'.heap.length ≤ state.heap.length + list.length

/-- A neighbour that remains. -/
theorem peelNeighbor_of_mem {state : PeelState} {v : VertexId} (haffected : affected.length = n)
    (hv : v ∈ remainingIn (markedSet affected) state.removed) (hlt : v.val < state.degree.length) :
    (peelNeighbor n affected state v).degree.getD v 0 = state.degree.getD v 0 - 1 ∧
      Lowers (remainingIn (markedSet affected) state.removed) [v] state
        (peelNeighbor n affected state v) := by
  have hvn : v.val < n := haffected ▸ lt_of_mem_markedSet hv.1
  have hcond : ¬ (decide (n ≤ v.val) || decide (affected.length ≤ v.val) ||
      decide (affected.getD v 0 = 0) || decide (state.removed.getD v 0 ≠ 0)) = true := by
    rw [haffected, decide_eq_false (not_le.mpr hvn), decide_eq_false hv.1,
      decide_eq_false (not_not.mpr hv.2)]
    exact Bool.false_ne_true
  unfold peelNeighbor
  rw [if_neg hcond]
  dsimp only
  have hread : ∀ w : VertexId, (if state.degree.getD v 0 ≠ 0 then
      state.degree.set v (state.degree.getD v 0 - 1) else state.degree).getD w 0 =
      if w = v then state.degree.getD v 0 - 1 else state.degree.getD w 0 := fun w => by
    by_cases hzero : state.degree.getD v 0 = 0
    · rw [if_neg (not_not.mpr hzero)]
      split
      · rename_i heq
        rw [heq, hzero]
      · rfl
    · rw [if_pos hzero, getD_set hlt]
      exact if_congr Fin.ext_iff.symm rfl rfl
  have hlength : (if state.degree.getD v 0 ≠ 0 then
      state.degree.set v (state.degree.getD v 0 - 1) else state.degree).length =
      state.degree.length := by
    split
    · exact List.length_set
    · rfl
  have hself := (hread v).trans (if_pos rfl)
  refine ⟨hself, rfl, rfl, rfl, hlength, fun w hw _ => ?_, fun w hw => ?_,
    fun item hitem => List.mem_cons_of_mem _ hitem, fun item hitem => ?_, le_rfl⟩
  · rw [List.mem_singleton.mp hw]
    exact ⟨hself, List.mem_cons_self⟩
  · rw [hread, if_neg]
    rintro rfl
    exact hw.elim (fun hnot => hnot (List.mem_singleton.mpr rfl)) fun hnot => hnot hv
  · rcases List.mem_cons.mp hitem with rfl | hold
    · exact Or.inr hv
    · exact Or.inl hold

/-- A neighbour outside the region or already removed. -/
theorem peelNeighbor_of_notMem {state : PeelState} {v : VertexId}
    (hv : v ∉ remainingIn (markedSet affected) state.removed) :
    peelNeighbor n affected state v = state := by
  refine if_pos ?_
  rw [Bool.or_eq_true, Bool.or_eq_true, Bool.or_eq_true]
  simp only [decide_eq_true_eq]
  by_contra hnot
  simp only [not_or] at hnot
  exact hv ⟨hnot.1.2, not_not.mp hnot.2⟩

/-- The callback for all neighbours of a removed vertex. -/
theorem foldl_peelNeighbor (haffected : affected.length = n) (list : List VertexId)
    (hnodup : list.Nodup) (state : PeelState) (hlength : state.degree.length = n) :
    Lowers (remainingIn (markedSet affected) state.removed) list state
      (list.foldl (peelNeighbor n affected) state) := by
  induction list generalizing state with
  | nil => exact ⟨rfl, rfl, rfl, rfl, fun v hv => absurd hv List.not_mem_nil, fun v _ => rfl,
      fun item => id, fun item => Or.inl, le_rfl⟩
  | cons u rest ih =>
    obtain ⟨hnot, hrest⟩ := List.nodup_cons.mp hnodup
    rw [List.foldl_cons]
    by_cases hu : u ∈ remainingIn (markedSet affected) state.removed
    · have hlt : u.val < state.degree.length := by
        rw [hlength, ← haffected]
        exact lt_of_mem_markedSet hu.1
      obtain ⟨hself, hone⟩ := peelNeighbor_of_mem haffected hu hlt
      generalize peelNeighbor n affected state u = next at hself hone ⊢
      have hall := ih hrest next (hone.degree_length.trans hlength)
      rw [hone.removed_eq] at hall
      generalize rest.foldl (peelNeighbor n affected) next = last at hall ⊢
      refine ⟨hall.core_eq.trans hone.core_eq, hall.removed_eq.trans hone.removed_eq,
        hall.current_eq.trans hone.current_eq, hall.degree_length.trans hone.degree_length,
        fun v hv hin => ?_, fun v hv => ?_, fun item hitem => ?_, fun item hitem => ?_, ?_⟩
      · rcases List.mem_cons.mp hv with rfl | hmem
        · rw [hall.kept v (Or.inl hnot), hself]
          refine ⟨rfl, hall.heap_kept _ ?_⟩
          rw [← hself]
          exact (hone.lowered v List.mem_cons_self hin).2
        · obtain ⟨hdegree, hqueued⟩ := hall.lowered v hmem hin
          have hne : v ∉ [u] := fun heq => hnot (List.mem_singleton.mp heq ▸ hmem)
          exact ⟨hdegree.trans (congrArg (· - 1) (hone.kept v (Or.inl hne))), hqueued⟩
      · rw [hall.kept v (hv.imp_left fun hout hmem => hout (List.mem_cons_of_mem _ hmem))]
        refine hone.kept v (hv.imp_left fun hout hmem => hout ?_)
        rw [List.mem_singleton.mp hmem]
        exact List.mem_cons_self
      · exact hall.heap_kept item (hone.heap_kept item hitem)
      · exact (hall.pushed item hitem).elim (hone.pushed item) Or.inr
      · have hfirst := hone.heap_length
        have hsecond := hall.heap_length
        rw [List.length_cons]
        rw [List.length_singleton] at hfirst
        omega
    · rw [peelNeighbor_of_notMem hu]
      have hall := ih hrest state hlength
      refine ⟨hall.core_eq, hall.removed_eq, hall.current_eq, hall.degree_length,
        fun v hv hin => ?_, fun v hv => ?_, hall.heap_kept, hall.pushed, ?_⟩
      · rcases List.mem_cons.mp hv with rfl | hmem
        · exact absurd hin hu
        · exact hall.lowered v hmem hin
      · exact hall.kept v (hv.imp_left fun hout hmem => hout (List.mem_cons_of_mem _ hmem))
      · exact hall.heap_length.trans (by rw [List.length_cons]; omega)

/-- A state of the peeling loop. -/
structure PeelingState (arcs : ArcSet) (n : ℕ) (R : Set VertexId) (core : List ℕ)
    (state : PeelState) : Prop where
  core_length : state.core.length = n
  degree_length : state.degree.length = n
  removed_length : state.removed.length = n
  degree : ∀ v ∈ remainingIn R state.removed,
    state.degree.getD v 0 = degreeIn (graphOf arcs) (remainingIn R state.removed) v
  queued : ∀ v ∈ remainingIn R state.removed, toLex (state.degree.getD v 0, v) ∈ state.heap
  within : ∀ item ∈ state.heap, (ofLex item).2 ∈ R
  peeled : Peeled (graphOf arcs) R (remainingIn R state.removed) state.currentCore
    fun v => state.core.getD v 0
  outside : ∀ v, v ∉ R → state.core.getD v 0 = core.getD v 0

/-- The measure of the peeling loop: entries in the heap, and room for those still to come. -/
noncomputable def peelMeasure (n : ℕ) (R : Set VertexId) (state : PeelState) : ℕ :=
  state.heap.length + (remainingIn R state.removed).ncard * (n + 1)

/-- Dropping a stale entry. -/
theorem PeelingState.drop {R : Set VertexId} {core : List ℕ} {state : PeelState}
    (h : PeelingState arcs n R core state) {item : Item} {rest : List Item}
    (hpop : popMin state.heap = some (item, rest))
    (hstale : ∀ v ∈ remainingIn R state.removed, item ≠ toLex (state.degree.getD v 0, v)) :
    PeelingState arcs n R core { state with heap := rest } ∧
      peelMeasure n R { state with heap := rest } < peelMeasure n R state := by
  refine ⟨⟨h.core_length, h.degree_length, h.removed_length, h.degree, fun v hv => ?_,
    fun other hother => h.within other (mem_of_mem_popMin hpop hother), h.peeled, h.outside⟩, ?_⟩
  · exact mem_popMin_of_ne hpop (h.queued v hv) (hstale v hv).symm
  · have hlength := length_popMin hpop
    unfold peelMeasure
    dsimp only
    omega

/-- The first fresh entry is a vertex of least remaining degree. -/
theorem PeelingState.least {R : Set VertexId} {core : List ℕ} {state : PeelState}
    (h : PeelingState arcs n R core state) {item : Item} {rest : List Item}
    (hpop : popMin state.heap = some (item, rest)) {u : VertexId}
    (hu : u ∈ remainingIn R state.removed) (hitem : item = toLex (state.degree.getD u 0, u))
    {v : VertexId} (hv : v ∈ remainingIn R state.removed) :
    degreeIn (graphOf arcs) (remainingIn R state.removed) u ≤
      degreeIn (graphOf arcs) (remainingIn R state.removed) v := by
  have hle := (popMin_eq_some hpop).2.1 _ (h.queued v hv)
  rw [← h.degree u hu, ← h.degree v hv]
  rw [hitem, Prod.Lex.le_iff] at hle
  exact hle.elim le_of_lt fun heq => heq.1.le

section Lowered

variable {S : Set VertexId} {state state' : PeelState} {u : VertexId}

/-- Lowering the neighbours of a vertex that is taken out gives the degrees in what remains. -/
theorem Lowers.degree_remaining (h : Lowers (S \ {u}) (forEachNeighbor g u) state state')
    (hadj : ∀ v, (graphOf arcs).Adj u v ↔ v ∈ forEachNeighbor g u) (hu : u ∈ S)
    (hdegree : ∀ v ∈ S, state.degree.getD v 0 = degreeIn (graphOf arcs) S v) {v : VertexId}
    (hv : v ∈ S \ {u}) : state'.degree.getD v 0 = degreeIn (graphOf arcs) (S \ {u}) v := by
  by_cases hnbr : v ∈ forEachNeighbor g u
  · rw [(h.lowered v hnbr hv).1, degreeIn_diff hu ((hadj v).mpr hnbr)]
    exact congrArg (· - 1) (hdegree v hv.1)
  · rw [h.kept v (Or.inl hnbr), degreeIn_diff_of_not_adj fun huv => hnbr ((hadj v).mp huv)]
    exact hdegree v hv.1

/-- Every vertex that remains has an entry with its new degree. -/
theorem Lowers.queued_remaining {list : List VertexId} (h : Lowers (S \ {u}) list state state')
    {heap : List Item} {degree : ℕ} (hpop : popMin heap = some (toLex (degree, u), state.heap))
    (hqueued : ∀ v ∈ S, toLex (state.degree.getD v 0, v) ∈ heap) {v : VertexId}
    (hv : v ∈ S \ {u}) : toLex (state'.degree.getD v 0, v) ∈ state'.heap := by
  by_cases hnbr : v ∈ list
  · exact (h.lowered v hnbr hv).2
  · rw [h.kept v (Or.inl hnbr)]
    refine h.heap_kept _ (mem_popMin_of_ne hpop (hqueued v hv.1) fun heq => hv.2 ?_)
    exact congrArg (fun item : Item => (ofLex item).2) heq

end Lowered

/-- Removing the vertex of a fresh entry. -/
theorem PeelingState.remove {core : List ℕ} {state : PeelState} (hserves : Serves g arcs)
    (hundirected : Undirected arcs) (hcount : vertexCount g = n) (haffected : affected.length = n)
    (hclosed : ∀ u ∈ markedSet affected, ∀ v, (u, v) ∈ arcs → v ∈ markedSet affected)
    (h : PeelingState arcs n (markedSet affected) core state) {rest : List Item} {u : VertexId}
    (hpop : popMin state.heap = some (toLex (state.degree.getD u 0, u), rest))
    (hu : u ∈ remainingIn (markedSet affected) state.removed) :
    let next := (forEachNeighbor g u).foldl (peelNeighbor n affected)
      { state with
        heap := rest
        removed := state.removed.set u 1
        currentCore := max state.currentCore (state.degree.getD u 0)
        core := state.core.set u (max state.currentCore (state.degree.getD u 0)) }
    PeelingState arcs n (markedSet affected) core next ∧
      peelMeasure n (markedSet affected) next < peelMeasure n (markedSet affected) state := by
  have hun : u.val < n := haffected ▸ lt_of_mem_markedSet hu.1
  have hadj : ∀ v, (graphOf arcs).Adj u v ↔ v ∈ forEachNeighbor g u := fun v => by
    rw [graphOf_adj hundirected hserves.simple.loopless, hserves.mem_neighbor]
  have hset : remainingIn (markedSet affected) (state.removed.set u 1) =
      remainingIn (markedSet affected) state.removed \ {u} :=
    remainingIn_set (h.removed_length.symm ▸ hun)
  have hpeeled := h.peeled.step (fun w hw v hwv => hclosed w hw v
    ((graphOf_adj hundirected hserves.simple.loopless).mp hwv)) hu
    fun v hv => h.least hpop hu rfl hv
  rw [← h.degree u hu] at hpeeled
  have hfold := foldl_peelNeighbor haffected (forEachNeighbor g u) (hserves.nodup u)
    { state with
      heap := rest
      removed := state.removed.set u 1
      currentCore := max state.currentCore (state.degree.getD u 0)
      core := state.core.set u (max state.currentCore (state.degree.getD u 0)) } h.degree_length
  dsimp only at hfold ⊢
  generalize (forEachNeighbor g u).foldl (peelNeighbor n affected) _ = next at hfold ⊢
  rw [hset] at hfold
  have hremaining : remainingIn (markedSet affected) next.removed =
      remainingIn (markedSet affected) state.removed \ {u} := by rw [hfold.removed_eq, hset]
  have hcell : ∀ v : VertexId, next.core.getD v 0 = Function.update
      (fun v : VertexId => state.core.getD v 0) u
      (max state.currentCore (state.degree.getD u 0)) v := fun v => by
    rw [hfold.core_eq]
    exact congrFun (getD_set_update (h.core_length.symm ▸ hun) _ fun _ => 0) v
  refine ⟨⟨?_, hfold.degree_length.trans h.degree_length, ?_, fun v hv => ?_, fun v hv => ?_,
    fun item hitem => ?_, ?_, fun v hv => ?_⟩, ?_⟩
  · rw [hfold.core_eq]
    exact List.length_set.trans h.core_length
  · rw [hfold.removed_eq]
    exact List.length_set.trans h.removed_length
  · rw [hremaining] at hv ⊢
    exact hfold.degree_remaining hadj hu h.degree hv
  · rw [hremaining] at hv
    exact hfold.queued_remaining hpop h.queued hv
  · rcases hfold.pushed item hitem with hold | hin
    · exact h.within item (mem_of_mem_popMin hpop hold)
    · exact hin.1.1
  · rw [hremaining, hfold.current_eq]
    exact hpeeled.congr fun v _ _ => hcell v
  · rw [hcell, Function.update_of_ne fun heq => hv (by rw [heq]; exact hu.1)]
    exact h.outside v hv
  · have hcard := Set.ncard_sdiff_singleton_add_one hu (Set.toFinite _)
    have hlength := length_popMin hpop
    have hheap := hfold.heap_length
    have hdegree := length_neighbors_le hserves hcount u
    unfold peelMeasure
    rw [hremaining, ← hcard, Nat.add_mul]
    dsimp only at hheap
    omega

/-- A turn of the peeling loop drops its entry or removes the entry's vertex. -/
theorem peelTop_eq {state : PeelState} {degree : ℕ} {u : VertexId} {rest : List Item}
    (hpop : popMin state.heap = some (toLex (degree, u), rest)) :
    peelTop g n affected state =
      if n ≤ u || state.removed.getD u 0 ≠ 0 || degree ≠ state.degree.getD u 0 then
        { state with heap := rest }
      else
        (forEachNeighbor g u).foldl (peelNeighbor n affected)
          { state with
            heap := rest
            removed := state.removed.set u 1
            currentCore := max state.currentCore degree
            core := state.core.set u (max state.currentCore degree) } := by
  unfold peelTop
  rw [hpop]
  rfl

/-- One turn of the peeling loop. -/
theorem PeelingState.top {core : List ℕ} {state : PeelState} (hserves : Serves g arcs)
    (hundirected : Undirected arcs) (hcount : vertexCount g = n) (haffected : affected.length = n)
    (hclosed : ∀ u ∈ markedSet affected, ∀ v, (u, v) ∈ arcs → v ∈ markedSet affected)
    (h : PeelingState arcs n (markedSet affected) core state) (hheap : state.heap ≠ []) :
    PeelingState arcs n (markedSet affected) core (peelTop g n affected state) ∧
      peelMeasure n (markedSet affected) (peelTop g n affected state) <
        peelMeasure n (markedSet affected) state := by
  cases hpop : popMin state.heap with
  | none => exact absurd (popMin_eq_none.mp hpop) hheap
  | some popped =>
    obtain ⟨item, rest⟩ := popped
    obtain ⟨degree, u⟩ := item
    change popMin state.heap = some (toLex (degree, u), rest) at hpop
    rw [peelTop_eq hpop]
    have hin : u ∈ markedSet affected := h.within _ (popMin_eq_some hpop).1
    have hun : u.val < n := haffected ▸ lt_of_mem_markedSet hin
    by_cases hfresh : u ∈ remainingIn (markedSet affected) state.removed ∧
        degree = state.degree.getD u 0
    · obtain ⟨hu, rfl⟩ := hfresh
      have hcond : ¬ (decide (n ≤ u.val) || decide (state.removed.getD u 0 ≠ 0) ||
          decide (state.degree.getD u 0 ≠ state.degree.getD u 0)) = true := by
        rw [decide_eq_false (not_le.mpr hun), decide_eq_false (not_not.mpr hu.2),
          decide_eq_false (not_not.mpr rfl)]
        exact Bool.false_ne_true
      rw [if_neg hcond]
      exact h.remove hserves hundirected hcount haffected hclosed hpop hu
    · have hcond : (decide (n ≤ u.val) || decide (state.removed.getD u 0 ≠ 0) ||
          decide (degree ≠ state.degree.getD u 0)) = true := by
        simp only [Bool.or_eq_true, decide_eq_true_eq]
        by_contra hnot
        simp only [not_or, not_not] at hnot
        exact hfresh ⟨⟨hin, hnot.1.2⟩, hnot.2⟩
      rw [if_pos hcond]
      refine h.drop hpop fun v hv heq => hfresh ?_
      obtain ⟨rfl, rfl⟩ := Prod.mk.inj heq
      exact ⟨hv, rfl⟩

/-- Growing the labels with the graph. -/
theorem grownCore (core : List ℕ) (hle : core.length ≤ n) :
    (if core.length < n then resize core n 0 else core).length = n ∧
      ∀ i, (if core.length < n then resize core n 0 else core).getD i 0 = core.getD i 0 := by
  by_cases hlt : core.length < n
  · rw [if_pos hlt]
    refine ⟨length_resize _ _ _, fun i => ?_⟩
    rw [getD_resize hle, ite_self]
    split
    · rfl
    · rw [List.getD_eq_default _ _ (by omega)]
  · rw [if_neg hlt]
    exact ⟨by omega, fun i => rfl⟩

/-- The loop that fills the heap leads to the peeling loop. -/
theorem Seeding.peeling {R : Set VertexId} {core : List ℕ} {state : PeelState}
    (hwithin : ∀ v ∈ R, v.val < n) (h : Seeding arcs n R core n state) :
    PeelingState arcs n R core state := by
  have hall : remainingIn R state.removed = R := Set.ext fun v => by
    refine and_iff_left_of_imp fun hv => ?_
    rw [h.removed_eq, List.getD_replicate _ (hwithin v hv)]
  refine ⟨h.core_length, h.degree_length, ?_, fun v hv => ?_, fun v hv => ?_, h.within, ?_,
    h.outside⟩
  · rw [h.removed_eq, List.length_replicate]
  · rw [hall] at hv ⊢
    exact h.degree v hv (hwithin v hv)
  · rw [hall] at hv
    exact h.queued v hv (hwithin v hv)
  · rw [hall, h.current_eq]
    exact peeled_start _ _ _

/-- Recomputing a region that is closed under adjacency, outside of which the labels are right. -/
theorem recomputeRegion_spec (engine : IncrementalKCore G) (hserves : Serves engine.graph arcs)
    (hundirected : Undirected arcs) (hn : vertexCount engine.graph < 2 ^ 32)
    (haffected : affected.length = vertexCount engine.graph)
    (hclosed : ∀ u ∈ markedSet affected, ∀ v, (u, v) ∈ arcs → v ∈ markedSet affected)
    (hcore : engine.core.length ≤ vertexCount engine.graph)
    (hlabels : ∀ v, v ∉ markedSet affected →
      IsCoreNumber (graphOf arcs) v (engine.core.getD v 0)) :
    Returns (fun fuel => engine.recomputeRegion fuel affected) fun engine' =>
      engine'.graph = engine.graph ∧ engine'.core.length = vertexCount engine.graph ∧
        ∀ v : VertexId, IsCoreNumber (graphOf arcs) v (engine'.core.getD v 0) := by
  obtain ⟨hlength, hread⟩ := grownCore engine.core hcore
  have hwithin : ∀ v ∈ markedSet affected, v.val < vertexCount engine.graph := fun v hv =>
    haffected ▸ lt_of_mem_markedSet hv
  unfold recomputeRegion
  dsimp only
  generalize (if engine.core.length < vertexCount engine.graph then
    resize engine.core (vertexCount engine.graph) 0 else engine.core) = core at hlength hread ⊢
  refine (returns_countLoop hn
    (fun i state => Seeding arcs (vertexCount engine.graph) (markedSet affected) core i state)
    (fun u state hu hstate => Returns.pure (hstate.vertex hserves hundirected rfl hn haffected hu))
    (Nat.zero_le _) ?_).bind fun state hstate => ?_
  · refine ⟨hlength, List.length_replicate, rfl, rfl,
      fun v _ hlt => absurd hlt (Nat.not_lt_zero _), fun v _ => ?_,
      fun v _ hlt => absurd hlt (Nat.not_lt_zero _), fun item hitem => absurd hitem List.not_mem_nil,
      fun v _ => rfl⟩
    change (List.replicate (vertexCount engine.graph) 0).getD v 0 = 0
    rw [List.getD_eq_getElem?_getD, List.getElem?_replicate]
    split <;> rfl
  · refine Returns.map ((returns_while (fun m (state : PeelState) =>
      m = peelMeasure (vertexCount engine.graph) (markedSet affected) state ∧
        PeelingState arcs (vertexCount engine.graph) (markedSet affected) core state)
      (fun m state hinv hheap => ?_) ⟨rfl, hstate.peeling hwithin⟩).mono fun last hlast => ?_)
    · obtain ⟨rfl, hpeeling⟩ := hinv
      have hne : state.heap ≠ [] := by simpa using hheap
      obtain ⟨hnext, hmeasure⟩ := hpeeling.top hserves hundirected rfl haffected hclosed hne
      exact Returns.pure ⟨_, hmeasure, rfl, hnext⟩
    · obtain ⟨⟨m, -, hpeeling⟩, hempty⟩ := hlast
      have hnil : last.heap = [] := by simpa using hempty
      refine ⟨rfl, hpeeling.core_length, fun v => ?_⟩
      by_cases hv : v ∈ markedSet affected
      · refine hpeeling.peeled.done (fun w hw => ?_) hv
        have hqueued := hpeeling.queued w hw
        rw [hnil] at hqueued
        exact List.not_mem_nil hqueued
      · change IsCoreNumber (graphOf arcs) v (last.core.getD v 0)
        rw [hpeeling.outside v hv, hread]
        exact hlabels v hv

end Peel

end IncrementalKCore

end VeloGraphX
