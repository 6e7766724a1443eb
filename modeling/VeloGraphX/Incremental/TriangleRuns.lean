import Mathlib
import VeloGraphX.Incremental.TriangleCount
import VeloGraphX.Lib.ListBounds

/-!
# Runs of the triangle engine

The count is the number of 3-cliques of every intermediate graph, operation by operation, as long
as that number fits in 64 bits; then no subtraction saturates. Whatever the count is, the graph
goes through the states that its own `apply` would lead it through.
-/

namespace VeloGraphX

open FuelLoop Triangles ArcSet GraphAccess

namespace IncrementalTriangleCount

section Count

variable {G : Type} [GraphAccess G] {g : G} {arcs : ArcSet}

/-- A row of neighbours is no longer than there are ids. -/
theorem length_neighbors_lt (hserves : Serves g arcs) (u : VertexId) :
    (forEachNeighbor g u).length ≤ 2 ^ 32 := by
  have hle := (hserves.nodup u).length_le_card
  rwa [Fintype.card_fin] at hle

/-- `common_neighbors` counts the common neighbours, whichever row is scanned. -/
theorem commonNeighbors_eq (hserves : Serves g arcs) (hundirected : Undirected arcs)
    (a b : VertexId) :
    commonNeighbors g a b = ((graphOf arcs).commonNeighbors a b).ncard := by
  have hloopless := hserves.simple.loopless
  have hscan : ∀ scan probe, (forEachNeighbor g scan).foldl
      (fun common (v : VertexId) => if hasEdge g probe v then addU64 common 1 else common) 0 =
      ((graphOf arcs).commonNeighbors scan probe).ncard := by
    intro scan probe
    have hlength := length_neighbors_lt hserves scan
    have hfits := List.countP_le_length (p := fun v => hasEdge g probe v)
      (l := forEachNeighbor g scan)
    refine (ListBounds.foldl_count (fun v => hasEdge g probe v) _ (by omega)).trans ?_
    rw [Nat.zero_add, List.countP_eq_length_filter,
      ← List.toFinset_card_of_nodup ((hserves.nodup scan).filter _), ← Set.ncard_coe_finset]
    refine congrArg Set.ncard (Set.ext fun w => ?_)
    rw [List.coe_toFinset, Set.mem_ofPred_eq, List.mem_filter, hserves.mem_neighbor,
      hserves.hasEdge, present_eq_true, SimpleGraph.mem_commonNeighbors,
      graphOf_adj hundirected hloopless, graphOf_adj hundirected hloopless]
  unfold commonNeighbors
  by_cases hswap : neighborCount g b < neighborCount g a
  · simp only [if_pos hswap]
    exact (hscan b a).trans (congrArg Set.ncard (SimpleGraph.commonNeighbors_symm _ b a))
  · simp only [if_neg hswap]
    exact hscan a b

/-- Steps that add a term each in 64 bits. -/
theorem foldl_sum64 (list : List VertexId) (keep : VertexId → Bool) (f : VertexId → ℕ)
    (step : VertexId → ℕ → ℕ)
    (hstep : ∀ v ∈ list, ∀ total < 2 ^ 64, step v total = (total + f v) % 2 ^ 64) (total : ℕ)
    (hlt : total < 2 ^ 64) :
    list.foldl (fun total v => if keep v then step v total else total) total =
      (total + ((list.filter keep).map f).sum) % 2 ^ 64 := by
  induction list generalizing total with
  | nil => exact (Nat.mod_eq_of_lt hlt).symm
  | cons v rest ih =>
    have hrest := ih fun w hw => hstep w (List.mem_cons_of_mem v hw)
    rw [List.foldl_cons]
    by_cases hkeep : keep v = true
    · have hnext := hstep v List.mem_cons_self total hlt
      rw [if_pos hkeep, hrest _ (hnext ▸ Nat.mod_lt _ (by norm_num)), hnext,
        List.filter_cons_of_pos hkeep, List.map_cons, List.sum_cons, Nat.mod_add_mod, Nat.add_assoc]
    · rw [if_neg hkeep, hrest _ hlt, List.filter_cons_of_neg hkeep]

open Classical in
/-- The common neighbours over the later neighbours of one vertex. -/
theorem sum_laterNeighbors (hserves : Serves g arcs) (hundirected : Undirected arcs)
    (u : VertexId) : (((forEachNeighbor g u).filter fun v => u < v).map
      fun v => commonNeighbors g u v).sum =
      ∑ v : VertexId with u < v ∧ (graphOf arcs).Adj u v,
        ((graphOf arcs).commonNeighbors u v).ncard := by
  rw [← List.sum_toFinset _ ((hserves.nodup u).filter _)]
  refine Finset.sum_congr (Finset.ext fun v => ?_) fun v _ =>
    commonNeighbors_eq hserves hundirected u v
  rw [List.mem_toFinset, List.mem_filter, Finset.mem_filter, hserves.mem_neighbor,
    graphOf_adj hundirected hserves.simple.loopless, decide_eq_true_eq]
  simp [and_comm]

/-- A loop over the vertices that adds a term for each of them in 64 bits. -/
theorem returns_sumLoop {n : ℕ} (hn : n < 2 ^ 32) {body : VertexId → ℕ → ℕ} (term : VertexId → ℕ)
    (hbody : ∀ (u : VertexId) total, u.val < n → total < 2 ^ 64 →
      body u total = (total + term u) % 2 ^ 64) :
    Returns (fun fuel => countLoop n (fun _ u total => some (body u total)) fuel (0 : VertexId) 0)
      fun total => total = (∑ w : VertexId with w.val < n, term w) % 2 ^ 64 := by
  have hnext : ∀ u : VertexId, ∑ w : VertexId with w.val < u.val + 1, term w =
      (∑ w : VertexId with w.val < u.val, term w) + term u := fun u => by
    have hset : (Finset.univ.filter fun w : VertexId => w.val < u.val + 1) =
        insert u (Finset.univ.filter fun w : VertexId => w.val < u.val) := by
      ext w
      simp only [Finset.mem_filter, Finset.mem_univ, true_and, Finset.mem_insert, Fin.ext_iff]
      omega
    rw [hset, Finset.sum_insert (by simp), Nat.add_comm]
  refine returns_countLoop hn (fun i total =>
    total = (∑ w : VertexId with w.val < i, term w) % 2 ^ 64)
    (fun u total hu htotal => Returns.pure ?_) (Nat.zero_le _) ?_
  · rw [hbody u total hu (htotal ▸ Nat.mod_lt _ (by norm_num)), htotal, hnext, Nat.mod_add_mod]
  · simp

open Classical in
/-- The later ends of the edges, vertex by vertex, are all edges. -/
theorem sum_laterEnds {n : ℕ} (hundirected : Undirected arcs) (hloopless : Loopless arcs)
    (hwithin : Within n arcs) (f : VertexId → VertexId → ℕ) :
    ∑ u : VertexId with u.val < n, ∑ v : VertexId with u < v ∧ (graphOf arcs).Adj u v, f u v =
      ∑ p : VertexId × VertexId with p.1 < p.2 ∧ (graphOf arcs).Adj p.1 p.2, f p.1 p.2 := by
  rw [Finset.sum_filter_of_ne, Finset.sum_filter, Fintype.sum_prod_type]
  · refine Finset.sum_congr rfl fun u _ => ?_
    exact Finset.sum_filter _ _
  · intro u _ hne
    obtain ⟨v, hv, -⟩ := Finset.exists_ne_zero_of_sum_ne_zero hne
    rw [Finset.mem_filter, graphOf_adj hundirected hloopless] at hv
    exact (hwithin u v hv.2.2).1

/-- The triples of the whole graph count every 3-clique three times, in 64 bits. -/
theorem returns_triples (hserves : Serves g arcs) (hundirected : Undirected arcs)
    (hcount : vertexCount g < 2 ^ 32) :
    Returns (fun fuel => countLoop (vertexCount g) (fun _ u triple => some (addTriples g u triple))
      fuel (0 : VertexId) 0) fun triple => triple = 3 * triangleCount (graphOf arcs) % 2 ^ 64 := by
  classical
  refine (returns_sumLoop hcount (fun u => ∑ v : VertexId with u < v ∧ (graphOf arcs).Adj u v,
    ((graphOf arcs).commonNeighbors u v).ncard) fun u triple _ hlt => ?_).mono fun triple htriple => ?_
  · have hfold := foldl_sum64 (forEachNeighbor g u) (fun v => decide (u < v))
      (fun v => commonNeighbors g u v) (fun v triple => addU64 triple (commonNeighbors g u v))
      (fun _ _ _ _ => rfl) triple hlt
    rw [sum_laterNeighbors hserves hundirected] at hfold
    simp only [decide_eq_true_eq] at hfold
    exact hfold
  · rw [htriple, sum_laterEnds hundirected hserves.simple.loopless hserves.simple.within
      (fun u v => ((graphOf arcs).commonNeighbors u v).ncard), ← sum_commonNeighbors]

/-- Counting again counts the 3-cliques when three times their number fits in 64 bits. -/
theorem recompute_spec {engine : IncrementalTriangleCount G} (hserves : Serves engine.graph arcs)
    (hundirected : Undirected arcs) (hcount : vertexCount engine.graph < 2 ^ 32)
    (hfits : 3 * triangleCount (graphOf arcs) < 2 ^ 64) :
    Returns (fun fuel => engine.recompute fuel) fun engine' =>
      engine' = ⟨engine.graph, triangleCount (graphOf arcs)⟩ := by
  refine Returns.map ((returns_triples hserves hundirected hcount).mono fun triple htriple => ?_)
  rw [htriple, Nat.mod_eq_of_lt hfits, Nat.mul_div_cancel_left _ (by norm_num)]

/-- The number of 3-cliques of a graph. -/
noncomputable def cliques (g : G) : ℕ :=
  triangleCount (SimpleGraph.fromRel fun p q => q ∈ forEachNeighbor g p)

end Count

variable {D : Type} [DoubleArith D] {engine : IncrementalTriangleCount (DynamicGraph D)}
  {arcs : ArcSet} {n : ℕ}

/-- An operation whose subtraction would go below zero. -/
def Saturates (engine : IncrementalTriangleCount (DynamicGraph D)) (op : EdgeUpdate) : Prop :=
  op.src ≠ op.dst ∧ op.add = false ∧ engine.graph.hasEdge op.src op.dst = true ∧
    engine.triangles < commonNeighbors engine.graph op.src op.dst

/-- An engine whose count is the number of 3-cliques of its undirected graph. -/
structure Exact (engine : IncrementalTriangleCount (DynamicGraph D)) (arcs : ArcSet) : Prop where
  refines : DynamicGraph.Refines engine.graph arcs
  undirected : engine.graph.directed = false
  count : engine.triangles = triangleCount (graphOf arcs)

/-- Every graph that a start of the operations leads to has fewer than `2 ^ 64` 3-cliques. -/
def Fits (arcs : ArcSet) (updates : List EdgeUpdate) : Prop :=
  ∀ start, start <+: updates → triangleCount (graphOf (applyAll false arcs start)) < 2 ^ 64

/-- Exact counts are those of the graph the engine enumerates. -/
theorem Exact.cliques_eq (h : Exact engine arcs) : engine.triangles = cliques engine.graph := by
  rw [h.count, cliques, h.refines.serves.fromRel_eq]

omit [DoubleArith D] in
/-- The arcs of an undirected engine come in pairs. -/
theorem Exact.undirected_arcs (h : Exact engine arcs) : Undirected arcs :=
  h.refines.simple.undirected h.undirected

/-- An operation on an undirected graph sets both arcs of its edge. -/
theorem mem_applyOp_undirected {op : EdgeUpdate} (hne : op.src ≠ op.dst) {x y : VertexId} :
    (x, y) ∈ applyOp false arcs op ↔
      if x = op.src ∧ y = op.dst ∨ x = op.dst ∧ y = op.src then op.add = true
      else (x, y) ∈ arcs := by
  rw [← present_eq_true, present_applyOp]
  split
  · rename_i hends
    have hwrite : writeOn false x y op = some op.add :=
      writeOn_undirected.mpr ⟨rfl, hne, by rcases hends with ⟨rfl, rfl⟩ | ⟨rfl, rfl⟩ <;> simp⟩
    rw [hwrite, Option.getD_some]
  · rename_i hends
    have hwrite : writeOn false x y op = none := by
      refine Option.eq_none_iff_forall_ne_some.mpr fun b hb => hends ?_
      exact (writeOn_undirected.mp hb).2.2.imp (fun h => ⟨h.1.symm, h.2.symm⟩)
        fun h => ⟨h.1.symm, h.2.symm⟩
    rw [hwrite, Option.getD_none, present_eq_true]

/-- An operation that asks for what is there changes nothing. -/
theorem applyOp_eq_self (hundirected : Undirected arcs) {op : EdgeUpdate} (hne : op.src ≠ op.dst)
    (hsame : present arcs op.src op.dst = op.add) : applyOp false arcs op = arcs := by
  refine Set.ext fun ⟨x, y⟩ => ?_
  rw [mem_applyOp_undirected hne, ← hsame, present_eq_true]
  split
  · rename_i hends
    rcases hends with ⟨rfl, rfl⟩ | ⟨rfl, rfl⟩
    · exact Iff.rfl
    · exact ⟨hundirected _ _, hundirected _ _⟩
  · exact Iff.rfl

/-- An operation that inserts an edge. -/
theorem inserts_of_add (h : Simple false n arcs) {op : EdgeUpdate} (hne : op.src ≠ op.dst)
    (hadd : op.add = true) (habsent : (op.src, op.dst) ∉ arcs) :
    Inserts (graphOf arcs) (graphOf (applyOp false arcs op)) op.src op.dst := by
  have hback := h.undirected rfl
  refine ⟨hne, ?_, fun x y => ?_⟩
  · rw [graphOf_adj hback h.loopless]
    exact habsent
  · rw [graphOf_adj hback h.loopless, graphOf_adj (hback.applyOp op) (h.loopless.applyOp _ op),
      mem_applyOp_undirected hne]
    split
    · rename_i hends
      exact iff_of_true hadd (Or.inr hends)
    · rename_i hends
      exact (or_iff_left hends).symm

/-- An operation that deletes an edge is undone by an insertion. -/
theorem inserts_of_remove (h : Simple false n arcs) {op : EdgeUpdate} (hne : op.src ≠ op.dst)
    (hremove : op.add = false) (hpresent : (op.src, op.dst) ∈ arcs) :
    Inserts (graphOf (applyOp false arcs op)) (graphOf arcs) op.src op.dst := by
  have hback := h.undirected rfl
  have hloopless := h.loopless.applyOp false op
  refine ⟨hne, ?_, fun x y => ?_⟩
  · rw [graphOf_adj (hback.applyOp op) hloopless, mem_applyOp_undirected hne,
      if_pos (Or.inl ⟨rfl, rfl⟩), hremove]
    exact Bool.false_ne_true
  · rw [graphOf_adj hback h.loopless, graphOf_adj (hback.applyOp op) hloopless,
      mem_applyOp_undirected hne]
    split
    · rename_i hends
      refine iff_of_true ?_ (Or.inr hends)
      rcases hends with ⟨rfl, rfl⟩ | ⟨rfl, rfl⟩
      · exact hpresent
      · exact hback _ _ hpresent
    · rename_i hends
      exact (or_iff_left hends).symm

/-- One operation keeps the count exact when the count after it fits in 64 bits. -/
theorem Exact.applyOperation (h : Exact engine arcs) (op : EdgeUpdate)
    (hfits : triangleCount (graphOf (applyOp false arcs op)) < 2 ^ 64) :
    Exact (applyOperation engine op) (applyOp false arcs op) ∧ ¬ Saturates engine op := by
  unfold IncrementalTriangleCount.applyOperation
  by_cases hne : op.src = op.dst
  · rw [if_pos hne, applyOp, if_pos hne]
    exact ⟨h, fun hsaturates => hsaturates.1 hne⟩
  rw [if_neg hne]
  have hsimple := h.refines.simple
  rw [h.undirected] at hsimple
  obtain ⟨hrefines, -, hdirected, -⟩ := h.refines.applyUnversioned op
  rw [h.undirected] at hrefines hdirected
  have hcommon := commonNeighbors_eq h.refines.serves h.undirected_arcs op.src op.dst
  have hedge : engine.graph.hasEdge op.src op.dst = present arcs op.src op.dst :=
    h.refines.hasEdge op.src op.dst
  have hcount := h.count
  simp only [hcommon, hedge]
  by_cases hchanges : present arcs op.src op.dst = op.add
  · rw [applyOp_eq_self h.undirected_arcs hne hchanges] at hrefines ⊢
    refine ⟨⟨hrefines, hdirected, ?_⟩, fun hsaturates => ?_⟩
    · cases hadd : op.add <;> rw [hadd] at hchanges <;> simpa [hchanges] using hcount
    · have hpresent := hsaturates.2.2.1
      rw [hedge, hchanges, hsaturates.2.1] at hpresent
      exact Bool.false_ne_true hpresent
  · cases hadd : op.add with
    | true =>
      rw [hadd, Bool.not_eq_true] at hchanges
      have habsent : (op.src, op.dst) ∉ arcs := fun hmem => by
        rw [present_eq_true.mpr hmem] at hchanges
        exact Bool.false_ne_true hchanges.symm
      have hinserts := (inserts_of_add hsimple hne hadd habsent).triangleCount
      rw [hinserts] at hfits
      refine ⟨⟨hrefines, hdirected, ?_⟩, fun hsaturates => ?_⟩
      · simp only [hchanges, Bool.not_false, Bool.and_self, if_true, Bool.not_true,
          Bool.false_eq_true, if_false]
        rw [hcount, hinserts, addU64, Nat.mod_eq_of_lt hfits]
      · exact Bool.false_ne_true (hsaturates.2.1.symm.trans hadd)
    | false =>
      rw [hadd, Bool.not_eq_false] at hchanges
      have hdeletes := inserts_of_remove hsimple hne hadd (present_eq_true.mp hchanges)
      have hsum := hdeletes.triangleCount
      rw [← hdeletes.commonNeighbors] at hsum
      refine ⟨⟨hrefines, hdirected, ?_⟩, fun hsaturates => ?_⟩
      · simp only [hchanges, Bool.not_true, Bool.false_eq_true, if_false,
          Bool.not_false, Bool.and_self, if_true]
        rw [hcount]
        omega
      · have hlt := hsaturates.2.2.2
        rw [hcommon, hcount] at hlt
        omega

/-- The operations of a batch keep the count exact, and none of them saturates. -/
theorem Exact.foldl (h : Exact engine arcs) (updates : List EdgeUpdate)
    (hfits : Fits arcs updates) :
    Exact (updates.foldl IncrementalTriangleCount.applyOperation engine)
        (applyAll false arcs updates) ∧
      ∀ start op, start ++ [op] <+: updates →
        ¬ Saturates (start.foldl IncrementalTriangleCount.applyOperation engine) op := by
  induction updates using List.reverseRecOn with
  | nil =>
    refine ⟨h, fun start op hstart => absurd (List.prefix_nil.mp hstart) ?_⟩
    exact List.append_ne_nil_of_right_ne_nil _ (List.cons_ne_nil _ _)
  | append_singleton earlier op ih =>
    obtain ⟨hearlier, hnone⟩ := ih fun start hstart => hfits start (hstart.trans (List.prefix_append _ _))
    have hlast := hfits _ (List.prefix_refl _)
    rw [applyAll, List.foldl_append] at hlast ⊢
    obtain ⟨hexact, hkeeps⟩ := hearlier.applyOperation op hlast
    rw [List.foldl_append]
    refine ⟨hexact, fun start op' hstart => ?_⟩
    rcases List.prefix_concat_iff.mp hstart with heq | hwithin
    · obtain ⟨rfl, hop⟩ := List.append_inj' heq rfl
      rw [List.singleton_inj.mp hop]
      exact hkeeps
    · exact hnone start op' hwithin

/-- Operations go through the states of the graph's own operations. -/
theorem graph_foldl (engine : IncrementalTriangleCount (DynamicGraph D))
    (updates : List EdgeUpdate) :
    (updates.foldl IncrementalTriangleCount.applyOperation engine).graph =
      updates.foldl DynamicGraph.applyUnversioned engine.graph := by
  induction updates generalizing engine with
  | nil => rfl
  | cons op rest ih =>
    rw [List.foldl_cons, List.foldl_cons, ih]
    refine congrArg (fun g => List.foldl _ g rest) ?_
    unfold IncrementalTriangleCount.applyOperation DynamicGraph.applyUnversioned
    by_cases hloop : op.src = op.dst
    · rw [if_pos hloop, if_pos hloop]
    · rw [if_neg hloop, if_neg hloop]

/-- A batch leaves the graph as the graph's own `apply` does. -/
theorem graph_apply (engine : IncrementalTriangleCount (DynamicGraph D)) (batch : UpdateBatch) :
    (engine.apply batch).graph = engine.graph.apply batch := by
  unfold IncrementalTriangleCount.apply
  split
  · rename_i hempty
    exact (DynamicGraph.apply_of_empty hempty).symm
  · rename_i hempty
    unfold DynamicGraph.apply
    dsimp only
    rw [if_neg hempty, graph_foldl]

/-- Execute a step. -/
def exec (engine : IncrementalTriangleCount (DynamicGraph D)) :
    EngineStep D → IncrementalTriangleCount (DynamicGraph D)
  | .apply batch => engine.apply batch
  | .maybeCompact threshold => { engine with graph := (engine.graph.maybeCompact threshold).2 }
  | .compact => { engine with graph := engine.graph.compact }

/-- Execute a run. -/
def run (engine : IncrementalTriangleCount (DynamicGraph D)) (steps : List (EngineStep D)) :
    IncrementalTriangleCount (DynamicGraph D) :=
  steps.foldl exec engine

/-- A step leaves the graph as the graph's own calls do. -/
theorem graph_exec (engine : IncrementalTriangleCount (DynamicGraph D)) (step : EngineStep D) :
    (engine.exec step).graph = step.graphAfter engine.graph := by
  cases step with
  | apply batch => exact graph_apply engine batch
  | maybeCompact threshold => rfl
  | compact => rfl

/-- A run leaves the graph as the graph's own calls do. -/
theorem graph_run (engine : IncrementalTriangleCount (DynamicGraph D))
    (steps : List (EngineStep D)) :
    (engine.run steps).graph = steps.foldl EngineStep.graphAfter engine.graph := by
  induction steps generalizing engine with
  | nil => rfl
  | cons step rest ih =>
    refine (ih (engine.exec step)).trans ?_
    rw [graph_exec]
    rfl

/-- A step changes the count by its operations alone. -/
theorem triangles_exec (engine : IncrementalTriangleCount (DynamicGraph D)) (step : EngineStep D) :
    (engine.exec step).triangles =
      (step.updates.foldl IncrementalTriangleCount.applyOperation engine).triangles := by
  cases step with
  | apply batch =>
    change (engine.apply batch).triangles = _
    unfold IncrementalTriangleCount.apply
    split
    · rename_i hempty
      rw [EngineStep.updates, List.isEmpty_iff.mp hempty]
      rfl
    · rfl
  | maybeCompact threshold => rfl
  | compact => rfl

/-- One step keeps the count exact. -/
theorem Exact.exec (h : Exact engine arcs) (step : EngineStep D)
    (hfits : Fits arcs step.updates) :
    Exact (engine.exec step) (applyAll false arcs step.updates) := by
  obtain ⟨hrefines, -, hdirected⟩ := h.refines.step step
  rw [h.undirected] at hrefines
  have hgraph := graph_exec engine step
  refine ⟨hgraph.symm ▸ hrefines, ?_, ?_⟩
  · rw [hgraph]
    exact hdirected.trans h.undirected
  · rw [triangles_exec]
    exact (h.foldl step.updates hfits).1.count

/-- A run keeps the count exact. -/
theorem Exact.run (h : Exact engine arcs) (steps : List (EngineStep D))
    (hfits : Fits arcs (steps.flatMap EngineStep.updates)) :
    Exact (engine.run steps) (applyAll false arcs (steps.flatMap EngineStep.updates)) := by
  induction steps generalizing engine arcs with
  | nil => exact h
  | cons step rest ih =>
    rw [List.flatMap_cons] at hfits ⊢
    have hstep := h.exec step fun start hstart => hfits start (hstart.trans (List.prefix_append _ _))
    rw [applyAll, List.foldl_append]
    refine ih hstep fun start hstart => ?_
    have hwhole := hfits (step.updates ++ start) ((List.prefix_append_right_inj _).mpr hstart)
    rwa [applyAll, List.foldl_append] at hwhole

/-- The count is held in 64 bits. -/
theorem triangles_applyOperation_lt (hlt : engine.triangles < 2 ^ 64) (op : EdgeUpdate) :
    (applyOperation engine op).triangles < 2 ^ 64 := by
  have hadd : ∀ common, addU64 engine.triangles common < 2 ^ 64 :=
    fun common => Nat.mod_lt _ (by norm_num)
  unfold IncrementalTriangleCount.applyOperation
  split
  · exact hlt
  · dsimp only
    split
    · refine (Nat.sub_le _ _).trans_lt ?_
      split
      · exact hadd _
      · exact hlt
    · split
      · exact hadd _
      · exact hlt

/-- The count is held in 64 bits throughout a run. -/
theorem triangles_run_lt (hlt : engine.triangles < 2 ^ 64) (steps : List (EngineStep D)) :
    (engine.run steps).triangles < 2 ^ 64 := by
  induction steps generalizing engine with
  | nil => exact hlt
  | cons step rest ih =>
    refine ih ?_
    rw [triangles_exec]
    generalize step.updates = updates
    induction updates generalizing engine with
    | nil => exact hlt
    | cons op rest ih' => exact ih' (triangles_applyOperation_lt hlt op)

section Reachable

variable {g : DynamicGraph D}

/-- The 3-cliques of a graph are those of the arcs it represents. -/
theorem cliques_eq (h : DynamicGraph.Refines g arcs) : cliques g = triangleCount (graphOf arcs) := by
  rw [cliques, h.serves.fromRel_eq]

/-- A graph has no more 3-cliques than it has sets of three vertices. -/
theorem cliques_le (h : DynamicGraph.Refines g arcs) : cliques g ≤ g.vertexCount.choose 3 := by
  rw [cliques_eq h]
  refine (triangleCount_le_choose fun x y hadj => ?_).trans
    (Nat.choose_le_choose 3 (card_vertices_le g.vertexCount))
  rw [Finset.mem_filter]
  rcases hadj.2 with harc | harc
  · exact ⟨Finset.mem_univ _, (h.simple.within x y harc).1⟩
  · exact ⟨Finset.mem_univ _, (h.simple.within y x harc).2⟩

/-- An engine that starts with the number of 3-cliques is exact. -/
theorem exact_start (h : DynamicGraph.Refines g arcs) (hundirected : g.directed = false) :
    Exact (⟨g, cliques g⟩ : IncrementalTriangleCount (DynamicGraph D)) arcs :=
  ⟨h, hundirected, cliques_eq h⟩

/-- Fewer than `2 ^ 64` 3-cliques in every graph that the operations lead to. -/
theorem fits_of_cliques (h : DynamicGraph.Refines g arcs) (hundirected : g.directed = false)
    {updates : List EdgeUpdate} (hcliques : ∀ start, start <+: updates →
      cliques (start.foldl DynamicGraph.applyUnversioned g) < 2 ^ 64) : Fits arcs updates := by
  intro start hstart
  obtain ⟨hfold, -⟩ := h.foldl_applyUnversioned start
  rw [hundirected] at hfold
  rw [← cliques_eq hfold]
  exact hcliques start hstart

end Reachable

/-- The graph goes through the states of its own calls; the count starts exact, and it stays
exact without a saturating subtraction as long as it fits in 64 bits. -/
theorem triangles_right (vertices : ℕ) (calls : List (Call D)) (steps : List (EngineStep D)) :
    let g := Call.run (DynamicGraph.create vertices false) calls
    (g.vertexCount < 2 ^ 32 → 3 * cliques g < 2 ^ 64 →
        Returns (fun fuel => create fuel g) fun result => result = .ok ⟨g, cliques g⟩) ∧
      createTrusted g (cliques g) = .ok ⟨g, cliques g⟩ ∧
      (∀ triangles k, (run ⟨g, triangles⟩ (steps.take k)).graph =
        (steps.take k).foldl EngineStep.graphAfter g) ∧
      ((∀ start, start <+: steps.flatMap EngineStep.updates →
          cliques (start.foldl DynamicGraph.applyUnversioned g) < 2 ^ 64) →
        ∀ k, let engine := run ⟨g, cliques g⟩ (steps.take k)
          engine.triangles = cliques engine.graph ∧
            ∀ batch, steps[k]? = some (.apply batch) → ∀ start op, start ++ [op] <+: batch.updates →
              ¬ Saturates (start.foldl applyOperation engine) op) := by
  dsimp only
  obtain ⟨hrefines, hundirected⟩ := (DynamicGraph.refines_create vertices false).1.run calls
  generalize Call.run (DynamicGraph.create vertices false) calls = g at hrefines hundirected ⊢
  change g.directed = false at hundirected
  have hvalid : validateGraph g = .ok () := by
    unfold validateGraph
    rw [show isDirected g = false from hundirected]
    rfl
  refine ⟨fun hcount hthrice => ?_, ?_, fun triangles k => graph_run _ _, fun hcliques k => ?_⟩
  · rw [cliques_eq hrefines] at hthrice ⊢
    have hrecompute := @recompute_spec (DynamicGraph D) _ _ { graph := g } hrefines.serves
      (hrefines.simple.undirected hundirected) hcount hthrice
    simp only [create, hvalid]
    refine Returns.map (hrecompute.mono fun engine hengine => ?_)
    rw [hengine]
  · unfold createTrusted
    rw [hvalid]
  · have hfits := fits_of_cliques hrefines hundirected hcliques
    have hsplit : steps.flatMap EngineStep.updates =
        (steps.take k).flatMap EngineStep.updates ++ (steps.drop k).flatMap EngineStep.updates := by
      rw [← List.flatMap_append, List.take_append_drop]
    rw [hsplit] at hfits
    have hexact := (exact_start hrefines hundirected).run (steps.take k)
      fun start hstart => hfits start (hstart.trans (List.prefix_append _ _))
    refine ⟨hexact.cliques_eq, fun batch hbatch => (hexact.foldl batch.updates fun start hstart => ?_).2⟩
    obtain ⟨hk, hget⟩ := List.getElem?_eq_some_iff.mp hbatch
    rw [List.drop_eq_getElem_cons hk, hget, List.flatMap_cons] at hfits
    have hwhole := hfits ((steps.take k).flatMap EngineStep.updates ++ start)
      ((List.prefix_append_right_inj _).mpr (hstart.trans (List.prefix_append _ _)))
    rwa [applyAll, List.foldl_append] at hwhole

/-- The batch that makes one triangle. -/
def triangleBatch : UpdateBatch := ⟨[⟨0, 1, true, 0⟩, ⟨1, 2, true, 0⟩, ⟨0, 2, true, 0⟩]⟩

/-- Counting on a graph without vertices, and a batch that makes one triangle. -/
theorem triangles_right_triangle :
    let g : DynamicGraph ℚ := DynamicGraph.create 0 false
    Returns (fun fuel => create fuel g) (fun result => result = .ok ⟨g, 0⟩) ∧
      let engine := run ⟨g, 0⟩ [.apply triangleBatch]
      engine.triangles = 1 ∧ cliques engine.graph = 1 := by
  intro g
  have hrefines : DynamicGraph.Refines g ∅ := (@DynamicGraph.refines_create ℚ 0 false).1
  have hcount : g.vertexCount = 0 := (@DynamicGraph.refines_create ℚ 0 false).2
  have hzero : cliques g = 0 := by
    have hle := cliques_le hrefines
    rw [hcount] at hle
    exact Nat.le_zero.mp hle
  have hright := triangles_right 0 ([] : List (Call ℚ)) [.apply triangleBatch]
  have hcreate : g.vertexCount < 2 ^ 32 → 3 * cliques g < 2 ^ 64 →
      Returns (fun fuel => create fuel g) fun result => result = .ok ⟨g, cliques g⟩ := hright.1
  have hcounts : (∀ start, start <+: triangleBatch.updates →
      cliques (start.foldl DynamicGraph.applyUnversioned g) < 2 ^ 64) →
        (run ⟨g, cliques g⟩ [.apply triangleBatch]).triangles =
          cliques (run ⟨g, cliques g⟩ [.apply triangleBatch]).graph :=
    fun hfits => (hright.2.2.2 hfits 1).1
  rw [hzero] at hcreate hcounts
  have hone : (run ⟨g, 0⟩ [.apply triangleBatch]).triangles = 1 := by decide +kernel
  refine ⟨hcreate (hcount.trans_lt (by norm_num)) (by norm_num), hone, ?_⟩
  refine (hcounts fun start hprefix => ?_).symm.trans hone
  obtain ⟨hfold, hgrown, -⟩ := hrefines.foldl_applyUnversioned start
  refine (cliques_le hfold).trans_lt ?_
  have hle : growAll 0 start ≤ growAll 0 triangleBatch.updates := by
    obtain ⟨rest, hrest⟩ := hprefix
    rw [← hrest, growAll, growAll, List.foldl_append]
    exact le_growAll _ rest
  have hthree : growAll 0 triangleBatch.updates = 3 := by decide
  rw [hgrown, hcount]
  calc (growAll 0 start).choose 3 ≤ (3).choose 3 := Nat.choose_le_choose 3 (hthree ▸ hle)
    _ < 2 ^ 64 := by norm_num

/-- All pairs of the first vertices. -/
def allPairs (n : ℕ) : List (VertexId × VertexId) :=
  ((List.finRange (2 ^ 32)).filter fun v => v.val < n).flatMap fun u =>
    ((List.finRange (2 ^ 32)).filter fun v => v.val < n).map fun v => (u, v)

/-- The graph of all pairs has a 3-clique for every three vertices. -/
theorem choose_le_allPairs {n : ℕ} (hn : n ≤ 2 ^ 32) :
    n.choose 3 ≤ triangleCount (graphOf (ofEdges false (allPairs n))) := by
  have hcard : ((Finset.range n).attachFin fun v hv =>
      (Finset.mem_range.mp hv).trans_le hn).card = n := by
    rw [Finset.card_attachFin, Finset.card_range]
  rw [← hcard]
  refine choose_le_triangleCount fun x hx y hy hne => ?_
  rw [Finset.mem_attachFin, Finset.mem_range] at hx hy
  rw [hcard]
  refine (SimpleGraph.fromRel_adj _ _ _).mpr ⟨hne, Or.inl ⟨hne, Or.inl ?_⟩⟩
  refine List.mem_flatMap.mpr ⟨x, ?_, List.mem_map.mpr ⟨y, ?_, rfl⟩⟩
  · simpa using hx
  · simpa using hy

/-- The sets of three. -/
theorem six_mul_choose (n : ℕ) : 6 * n.choose 3 = n * (n - 1) * (n - 2) := by
  have hfactor := Nat.descFactorial_eq_factorial_mul_choose n 3
  simp only [Nat.descFactorial_succ, Nat.descFactorial_zero, Nat.factorial] at hfactor
  calc 6 * n.choose 3 = (n - 2) * ((n - 1) * ((n - 0) * 1)) := hfactor.symm
    _ = n * (n - 1) * (n - 2) := by
      rw [Nat.sub_zero, Nat.mul_one, Nat.mul_comm, Nat.mul_comm (n - 1)]

/-- The batch that joins all pairs, and the value when it is right. -/
theorem choose_lt_of_right {n : ℕ} (hn : n ≤ 2 ^ 32) {g : DynamicGraph ℚ} {batch : UpdateBatch}
    (hg : g = DynamicGraph.create 0 false) (hupdates : batch.updates = insertions (allPairs n))
    {engine : IncrementalTriangleCount (DynamicGraph ℚ)}
    (hrun : engine = run ⟨g, cliques g⟩ [.apply batch])
    (hvalue : engine.triangles = cliques engine.graph) : n.choose 3 < 2 ^ 64 := by
  have hrefines := (@DynamicGraph.refines_create ℚ 0 false).1
  have hcount := (@DynamicGraph.refines_create ℚ 0 false).2
  have hstart := cliques_le hrefines
  rw [hcount, Nat.choose_zero_succ, ← hg] at hstart
  have hlt : engine.triangles < 2 ^ 64 := by
    rw [hrun]
    exact triangles_run_lt (hstart.trans_lt (by norm_num)) _
  have hgraph : engine.graph = g.apply batch := by
    rw [hrun, graph_run]
    rfl
  have hafter := (hrefines.apply batch).1
  rw [← hg, ← hgraph] at hafter
  have hdirected : g.directed = false := by
    rw [hg]
    rfl
  rw [hdirected, hupdates, applyAll_insertions] at hafter
  calc n.choose 3 ≤ cliques engine.graph := (choose_le_allPairs hn).trans (cliques_eq hafter).ge
    _ < 2 ^ 64 := hvalue ▸ hlt

/-- The batch that joins all pairs of `2 ^ 23` vertices makes more 3-cliques than 64 bits hold. -/
theorem not_triangles_right :
    ¬ ∀ (vertices : ℕ) (calls : List (Call ℚ)) (steps : List (EngineStep ℚ)) (k : ℕ),
      let g := Call.run (DynamicGraph.create vertices false) calls
      let engine := run ⟨g, cliques g⟩ (steps.take k)
      engine.triangles = cliques engine.graph := by
  intro h
  have hlt : ∀ n, n ≤ 2 ^ 32 → n.choose 3 < 2 ^ 64 := fun n hn => by
    obtain ⟨updates, hupdates⟩ : ∃ updates, updates = insertions (allPairs n) := ⟨_, rfl⟩
    have hright := h 0 [] [.apply ⟨updates⟩] 1
    dsimp only at hright
    exact choose_lt_of_right hn rfl (show (⟨updates⟩ : UpdateBatch).updates = _ from hupdates) rfl
      hright
  have hsmall := hlt 8388608 (by norm_num)
  have hlarge := six_mul_choose 8388608
  omega

end IncrementalTriangleCount

end VeloGraphX
