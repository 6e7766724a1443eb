import Mathlib
import VeloGraphX.Access.ReadableGraph
import VeloGraphX.Access.UndirectedGraph
import VeloGraphX.Lib.ClassNumbering

/-!
# Connected components of a static graph

Every start that has no label yet floods its component through a queue. Up to a start, the labels
are the numbers of the components whose least vertex lies before it, so the flood of the next one
gets the next number and meets no other label.
-/

namespace VeloGraphX

open FuelLoop ArcSet ReadableGraph ClassNumbering

namespace StaticComponents

/-- `std::numeric_limits<VertexId>::max()`, the label of a vertex that has none. -/
def unlabelled : VertexId := 0xFFFFFFFF

/-- The vectors `component` and `q`. -/
structure Flood where
  component : List VertexId
  queue : List VertexId := []
deriving DecidableEq, Repr

/-- The label of a vertex. -/
def Flood.label (s : Flood) (v : VertexId) : VertexId := s.component.getD v unlabelled

/-- Visit one neighbour. -/
def visitNeighbor (cid : VertexId) (s : Flood) (v : VertexId) : Flood :=
  if s.label v = unlabelled then { component := s.component.set v cid, queue := s.queue ++ [v] }
  else s

/-- One turn of the loop over the queue; no row of a vertex in it throws. -/
def popQueue (g : CsrGraph) (cid : VertexId) (s : Flood) : Flood :=
  match s.queue with
  | [] => s
  | u :: rest => (forEachNeighbor g u).foldl (visitNeighbor cid) { s with queue := rest }

/-- The loop over the queue. -/
def flood (g : CsrGraph) (cid : VertexId) (fuel : ℕ) (s : Flood) : Option Flood :=
  whileLoop (fun s => !s.queue.isEmpty) (fun _ s => some (popQueue g cid s)) fuel s

/-- One turn of the loop over the starts. -/
def componentTurn (g : CsrGraph) (fuel : ℕ) (start : VertexId) (state : Flood × VertexId) :
    Option (Flood × VertexId) :=
  if state.1.label start ≠ unlabelled then some state
  else
    let s : Flood :=
      { component := state.1.component.set start state.2, queue := state.1.queue ++ [start] }
    (flood g state.2 fuel s).map fun s => (s, state.2 + 1)

/-- The vectors before the first start. -/
def unvisited (g : CsrGraph) : Flood := { component := List.replicate g.vertexCount unlabelled }

/-- `connected_components`. -/
def connectedComponents (g : CsrGraph) (fuel : ℕ) : Option (Except Exception (List VertexId)) :=
  if g.directed then
    some (.error (.invalidArgument
      "connected_components requires an undirected graph; choose weak or strong connectivity explicitly for directed graphs"))
  else
    (countLoop g.vertexCount (componentTurn g) fuel (0 : VertexId) (unvisited g, (0 : VertexId))).map
      fun state => .ok state.1.component

section Visiting

variable {cid v w : VertexId} {s s' : Flood} {row : List VertexId}

/-- The labels and entries that are left to spend. -/
def Flood.weight (s : Flood) : ℕ := s.component.count unlabelled + s.queue.length

/-- A label that is set. -/
theorem label_set {v : VertexId} (hv : v.val < s.component.length) (queue : List VertexId)
    (w : VertexId) :
    Flood.label { component := s.component.set v cid, queue := queue } w =
      if w = v then cid else s.label w := by
  unfold Flood.label
  by_cases hw : w = v
  · rw [if_pos hw, hw]
    simp [List.getD_eq_getElem?_getD, hv]
  · have hne : v.val ≠ w.val := fun heq => hw (Fin.ext heq.symm)
    rw [if_neg hw, List.getD_eq_getElem?_getD, List.getD_eq_getElem?_getD, List.getElem?_set_ne hne]

/-- A label costs one. -/
theorem count_set (hcid : cid ≠ unlabelled) (hv : v.val < s.component.length)
    (hlabel : s.label v = unlabelled) :
    (s.component.set v cid).count unlabelled + 1 = s.component.count unlabelled := by
  have hget : s.component[v.val] = unlabelled := by
    rw [← hlabel, Flood.label, List.getD_eq_getElem _ _ hv]
  have hpos : 0 < s.component.count unlabelled :=
    List.count_pos_iff.mpr (hget ▸ List.getElem_mem hv)
  rw [List.count_set hv, hget]
  simp [hcid]
  omega

/-- What the visits of some neighbours do: those without a label get one and enter the queue. -/
structure Visited (cid : VertexId) (row : List VertexId) (s s' : Flood) : Prop where
  length : s'.component.length = s.component.length
  labels : ∀ v, s'.label v = s.label v ∨
    v ∈ row ∧ s.label v = unlabelled ∧ s'.label v = cid ∧ v ∈ s'.queue
  labelled : ∀ v ∈ row, s'.label v ≠ unlabelled
  queue : ∀ v ∈ s'.queue, v ∈ s.queue ∨ v ∈ row ∧ s'.label v = cid
  kept : s.queue ⊆ s'.queue
  weight : s'.weight = s.weight

/-- Labels stay. -/
theorem Visited.label_eq (h : Visited cid row s s') (hlabel : s.label v ≠ unlabelled) :
    s'.label v = s.label v := (h.labels v).resolve_right fun hnew => hlabel hnew.2.1

/-- One visit. -/
theorem visited_visitNeighbor (hcid : cid ≠ unlabelled) (hv : v.val < s.component.length) :
    Visited cid [v] s (visitNeighbor cid s v) := by
  unfold visitNeighbor
  by_cases hlabel : s.label v = unlabelled
  · rw [if_pos hlabel]
    refine ⟨List.length_set, fun w => ?_, fun w hw => ?_, fun w hw => ?_,
      List.subset_append_left _ _, ?_⟩
    · rw [label_set hv]
      by_cases hw : w = v
      · rw [if_pos hw]
        exact Or.inr ⟨List.mem_singleton.mpr hw, hw ▸ hlabel, rfl,
          List.mem_append_right _ (List.mem_singleton.mpr hw)⟩
      · rw [if_neg hw]
        exact Or.inl rfl
    · rw [label_set hv, if_pos (List.mem_singleton.mp hw)]
      exact hcid
    · refine (List.mem_append.mp hw).imp id fun hnew => ⟨hnew, ?_⟩
      rw [label_set hv, if_pos (List.mem_singleton.mp hnew)]
    · have hspent := count_set hcid hv hlabel
      simp only [Flood.weight, List.length_append, List.length_singleton]
      omega
  · rw [if_neg hlabel]
    exact ⟨rfl, fun w => Or.inl rfl, fun w hw => List.mem_singleton.mp hw ▸ hlabel,
      fun w hw => Or.inl hw, List.Subset.refl _, rfl⟩

/-- Nothing to visit. -/
theorem Visited.refl (cid : VertexId) (s : Flood) : Visited cid [] s s :=
  ⟨rfl, fun _ => Or.inl rfl, fun _ hw => absurd hw List.not_mem_nil, fun _ hw => Or.inl hw,
    List.Subset.refl _, rfl⟩

/-- The visits of two rows, one after the other. -/
theorem Visited.append {row' : List VertexId} {s'' : Flood} (hcid : cid ≠ unlabelled)
    (h : Visited cid row s s') (h' : Visited cid row' s' s'') : Visited cid (row ++ row') s s'' := by
  have hstays : ∀ {w}, s'.label w = cid → s''.label w = cid := fun {w} hw => by
    rw [h'.label_eq (hw ▸ hcid), hw]
  refine ⟨h'.length.trans h.length, fun w => ?_, fun w hw => ?_, fun w hw => ?_,
    fun w hw => h'.kept (h.kept hw), h'.weight.trans h.weight⟩
  · rcases h'.labels w with hsame | ⟨hmem, hnone, hnew, hqueue⟩
    · rcases h.labels w with hsame' | ⟨hmem, hnone, hnew, hqueue⟩
      · exact Or.inl (hsame.trans hsame')
      · exact Or.inr ⟨List.mem_append_left _ hmem, hnone, hstays hnew, h'.kept hqueue⟩
    · refine Or.inr ⟨List.mem_append_right _ hmem, ?_, hnew, hqueue⟩
      rcases h.labels w with hsame' | ⟨-, hnone', -, -⟩
      · exact hsame'.symm.trans hnone
      · exact hnone'
  · rcases List.mem_append.mp hw with hmem | hmem
    · have hlabel := h.labelled w hmem
      rwa [h'.label_eq hlabel]
    · exact h'.labelled w hmem
  · rcases h'.queue w hw with hold | ⟨hmem, hnew⟩
    · exact (h.queue w hold).imp id fun hnew => ⟨List.mem_append_left _ hnew.1, hstays hnew.2⟩
    · exact Or.inr ⟨List.mem_append_right _ hmem, hnew⟩

/-- The visits of a whole row. -/
theorem visited_foldl (hcid : cid ≠ unlabelled) (row : List VertexId) (s : Flood)
    (hrow : ∀ v ∈ row, v.val < s.component.length) :
    Visited cid row s (row.foldl (visitNeighbor cid) s) := by
  induction row generalizing s with
  | nil => exact Visited.refl cid s
  | cons v rest ih =>
    have hfirst := @visited_visitNeighbor cid v s hcid (hrow v List.mem_cons_self)
    exact hfirst.append hcid (ih (visitNeighbor cid s v) fun w hw =>
      hfirst.length.symm ▸ hrow w (List.mem_cons_of_mem v hw))

end Visiting

section Spreading

variable {g : CsrGraph} {arcs : ArcSet} {before s : Flood} {start cid v : VertexId}

/-- While a label spreads from a start: only vertices connected to the start get it, and those that
have left the queue have passed it on. -/
structure Spreading (arcs : ArcSet) (before : Flood) (start cid : VertexId) (s : Flood) : Prop where
  length : s.component.length = before.component.length
  labels : ∀ v, s.label v = before.label v ∨ (graphOf arcs).Reachable start v ∧ s.label v = cid
  start : s.label start = cid
  queue : ∀ v ∈ s.queue, v.val < s.component.length ∧ s.label v = cid
  passed : ∀ u, s.label u = cid → u ∈ s.queue ∨ ∀ w, (u, w) ∈ arcs → s.label w ≠ unlabelled

/-- What the labels before a flood are to it: its own label is not among them, and its component has
none. -/
structure Fresh (arcs : ArcSet) (before : Flood) (start cid : VertexId) : Prop where
  ne : cid ≠ unlabelled
  unused : ∀ v, before.label v ≠ cid
  none : ∀ v, (graphOf arcs).Reachable start v → before.label v = unlabelled

/-- Only vertices of the component have the label. -/
theorem Spreading.reachable (h : Spreading arcs before start cid s)
    (hfresh : Fresh arcs before start cid) (hlabel : s.label v = cid) :
    (graphOf arcs).Reachable start v := by
  rcases h.labels v with hsame | ⟨hreach, -⟩
  · exact absurd (hsame.symm.trans hlabel) (hfresh.unused v)
  · exact hreach

/-- A turn of the queue. -/
theorem Spreading.popQueue (h : Spreading arcs before start cid s) (hfresh : Fresh arcs before start cid)
    (hholds : g.Holds arcs) (hundirected : Undirected arcs)
    (hlength : before.component.length = g.vertexCount) (hqueue : s.queue ≠ []) :
    Spreading arcs before start cid (popQueue g cid s) ∧ (popQueue g cid s).weight < s.weight := by
  obtain ⟨u, rest, hs⟩ := List.exists_cons_of_ne_nil hqueue
  obtain ⟨hu, hlabel⟩ := h.queue u (hs ▸ List.mem_cons_self)
  have hreach := h.reachable hfresh hlabel
  have hcount : u.val < g.vertexCount := by
    rw [← hlength, ← h.length]
    exact hu
  have hrow := hholds.views.mem_neighbor u hcount
  have hvisited := visited_foldl hfresh.ne (forEachNeighbor g u) { s with queue := rest }
    fun w hw => by
      rw [h.length, hlength]
      exact (hholds.simple.within u w ((hrow w).mp hw)).2
  unfold StaticComponents.popQueue
  rw [hs]
  dsimp only
  generalize (forEachNeighbor g u).foldl (visitNeighbor cid) { s with queue := rest } = s' at hvisited
  have hkeeps : ∀ {w}, s.label w = cid → s'.label w = cid := fun {w} hw =>
    (hvisited.label_eq (s := { s with queue := rest }) (hw ▸ hfresh.ne : s.label w ≠ _)).trans hw
  refine ⟨⟨hvisited.length.trans h.length, fun w => ?_, hkeeps h.start, fun w hw => ?_,
    fun w hw => ?_⟩, ?_⟩
  · rcases hvisited.labels w with hsame | ⟨hmem, -, hnew, -⟩
    · rw [show s'.label w = s.label w from hsame]
      exact h.labels w
    · refine Or.inr ⟨hreach.trans (SimpleGraph.Adj.reachable ?_), hnew⟩
      exact (graphOf_adj hundirected hholds.simple.loopless).mpr ((hrow w).mp hmem)
  · rw [hvisited.length]
    rcases hvisited.queue w hw with hold | ⟨hmem, hnew⟩
    · obtain ⟨hlt, hcid⟩ := h.queue w (hs ▸ List.mem_cons_of_mem u hold)
      exact ⟨hlt, hkeeps hcid⟩
    · refine ⟨?_, hnew⟩
      rw [h.length, hlength]
      exact (hholds.simple.within u w ((hrow w).mp hmem)).2
  · have hmore : ∀ {x}, s.label x ≠ unlabelled → s'.label x ≠ unlabelled := fun {x} hx => by
      rw [hvisited.label_eq (s := { s with queue := rest }) hx]
      exact hx
    rcases hvisited.labels w with hsame | ⟨-, -, -, hqueued⟩
    · rcases h.passed w (hsame.symm.trans hw) with hmem | hpassed
      · rw [hs] at hmem
        rcases List.mem_cons.mp hmem with rfl | hrest
        · exact Or.inr fun x hx => hvisited.labelled x ((hrow x).mpr hx)
        · exact Or.inl (hvisited.kept hrest)
      · exact Or.inr fun x hx => hmore (hpassed x hx)
    · exact Or.inl hqueued
  · rw [hvisited.weight, Flood.weight, Flood.weight, hs, List.length_cons]
    exact Nat.lt_succ_self _

/-- A label that has spread has reached the whole component. -/
theorem Spreading.label_eq (h : Spreading arcs before start cid s) (hfresh : Fresh arcs before start cid)
    (hholds : g.Holds arcs) (hundirected : Undirected arcs) (hqueue : s.queue = []) :
    ∀ v, ((graphOf arcs).Reachable start v → s.label v = cid) ∧
      (¬ (graphOf arcs).Reachable start v → s.label v = before.label v) := by
  intro v
  refine ⟨fun hreach => ?_, fun hnot => (h.labels v).resolve_right fun hnew => hnot hnew.1⟩
  obtain ⟨walk⟩ := hreach
  -- along a walk from the start, whose vertices all have no label before
  have hspread : ∀ {u w : VertexId} (walk : (graphOf arcs).Walk u w),
      (graphOf arcs).Reachable start u → s.label u = cid → s.label w = cid := by
    intro u w walk
    induction walk with
    | nil => exact fun _ hu => hu
    | @cons u x w hadj _ ih =>
      intro hreach hu
      have hnext := hreach.trans hadj.reachable
      rw [graphOf_adj hundirected hholds.simple.loopless] at hadj
      refine ih hnext ?_
      rcases h.passed u hu with hmem | hpassed
      · rw [hqueue] at hmem
        exact absurd hmem List.not_mem_nil
      · rcases h.labels x with hsame | ⟨-, hcid⟩
        · exact absurd (hsame.trans (hfresh.none x hnext)) (hpassed x hadj)
        · exact hcid
  exact hspread walk (SimpleGraph.Reachable.refl _) h.start

/-- A flood returns, and has labelled the component of its start and nothing else. -/
theorem returns_flood (hfresh : Fresh arcs before start cid) (hholds : g.Holds arcs)
    (hundirected : Undirected arcs) (hlength : before.component.length = g.vertexCount)
    (hqueue : before.queue = []) (hstart : start.val < g.vertexCount) :
    Returns (fun fuel => flood g cid fuel { component := before.component.set start cid, queue :=
        before.queue ++ [start] }) fun s =>
      s.component.length = g.vertexCount ∧ s.queue = [] ∧
        ∀ v, ((graphOf arcs).Reachable start v → s.label v = cid) ∧
          (¬ (graphOf arcs).Reachable start v → s.label v = before.label v) := by
  have hlt : start.val < before.component.length := hlength.symm ▸ hstart
  have hlabel := @label_set cid before start hlt (before.queue ++ [start])
  have hfirst : Spreading arcs before start cid
      { component := before.component.set start cid, queue := before.queue ++ [start] } := by
    refine ⟨List.length_set, fun v => ?_, ?_, fun v hv => ?_, fun u hu => ?_⟩
    · rw [hlabel]
      split
      · rename_i hv
        exact Or.inr ⟨hv ▸ SimpleGraph.Reachable.refl _, rfl⟩
      · exact Or.inl rfl
    · rw [hlabel, if_pos rfl]
    · rw [hqueue, List.nil_append, List.mem_singleton] at hv
      rw [hlabel, if_pos hv, List.length_set]
      exact ⟨hv ▸ hlt, rfl⟩
    · rw [hlabel] at hu
      split at hu
      · rename_i hv
        exact Or.inl (List.mem_append_right _ (List.mem_singleton.mpr hv))
      · exact absurd hu (hfresh.unused u)
  refine (returns_while (fun m s => Spreading arcs before start cid s ∧ m = s.weight)
    (fun m s hinv hcond => ?_) ⟨hfirst, rfl⟩).mono fun s hs => ?_
  · obtain ⟨hinv, rfl⟩ := hinv
    obtain ⟨hnext, hless⟩ := hinv.popQueue hfresh hholds hundirected hlength (by simpa using hcond)
    exact Returns.pure ⟨_, hless, hnext, rfl⟩
  · obtain ⟨⟨-, hinv, -⟩, hexit⟩ := hs
    have hempty : s.queue = [] := by simpa using hexit
    exact ⟨hinv.length.trans hlength, hempty, hinv.label_eq hfresh hholds hundirected hempty⟩

end Spreading

section Starts

variable {g : CsrGraph} {arcs : ArcSet} {state : Flood × VertexId} {start : VertexId} {i n : ℕ}

/-- Being connected is an equivalence. -/
theorem reachable_equivalence (arcs : ArcSet) : Equivalence (graphOf arcs).Reachable :=
  SimpleGraph.reachable_is_equivalence _

/-- The least vertex of a component. -/
noncomputable def leastOf (arcs : ArcSet) (v : VertexId) : VertexId :=
  leader (reachable_equivalence arcs) v

/-- The least vertices that lie before a start. -/
def leastBelow (arcs : ArcSet) (i : ℕ) : Set VertexId :=
  leaders (reachable_equivalence arcs) {v | v.val < i}

/-- The number of a component. -/
noncomputable def numberOf (arcs : ArcSet) (v : VertexId) : ℕ :=
  number (reachable_equivalence arcs) (leastOf arcs v)

/-- The ids below a bound are closed downwards. -/
theorem isLowerSet_below (i : ℕ) : IsLowerSet {v : VertexId | v.val < i} :=
  fun _ _ hle hlt => lt_of_le_of_lt (Fin.le_def.mp hle) hlt

/-- There are at most as many components as starts. -/
theorem ncard_leastBelow_le (arcs : ArcSet) (i : ℕ) : (leastBelow arcs i).ncard ≤ i := by
  have hinj : Set.InjOn (fun v : VertexId => v.val) (leastBelow arcs i) :=
    fun v _ w _ heq => Fin.ext heq
  have hsub : (fun v : VertexId => v.val) '' leastBelow arcs i ⊆ Set.Iio i := by
    rintro _ ⟨v, hv, rfl⟩
    exact hv.1
  have hle := Set.ncard_le_ncard hsub (Set.finite_Iio i)
  rwa [hinj.ncard_image, Set.ncard_Iio_nat] at hle

/-- A component whose least vertex lies before a start has a number below that of the start. -/
theorem numberOf_lt {v : VertexId} (hv : (leastOf arcs v).val < i) :
    numberOf arcs v < (leastBelow arcs i).ncard :=
  number_lt_ncard _ (isLowerSet_below i) ⟨hv, leader_leader _ v⟩

/-- The labels when the starts before one have been visited. -/
structure Numbered (g : CsrGraph) (arcs : ArcSet) (i : ℕ) (state : Flood × VertexId) : Prop where
  length : state.1.component.length = g.vertexCount
  queue : state.1.queue = []
  next : state.2.val = (leastBelow arcs i).ncard
  before : ∀ v : VertexId, v.val < g.vertexCount → (leastOf arcs v).val < i →
    (state.1.label v).val = numberOf arcs v
  after : ∀ v : VertexId, i ≤ (leastOf arcs v).val → state.1.label v = unlabelled

/-- No start has been visited. -/
theorem numbered_unvisited (g : CsrGraph) (arcs : ArcSet) :
    Numbered g arcs 0 (unvisited g, (0 : VertexId)) := by
  refine ⟨List.length_replicate, rfl, ?_, fun v _ hv => absurd hv (Nat.not_lt_zero _), fun v _ => ?_⟩
  · rw [Nat.le_zero.mp (ncard_leastBelow_le arcs 0)]
    rfl
  · rw [Flood.label, unvisited, List.getD_eq_getElem?_getD, List.getElem?_replicate]
    split <;> rfl

/-- A label that was given is a number. -/
theorem Numbered.label_lt (h : Numbered g arcs i state) (hi : i < 2 ^ 32) {v : VertexId}
    (hv : v.val < g.vertexCount) (hlabel : (leastOf arcs v).val < i) :
    (state.1.label v).val < state.2.val ∧ state.1.label v ≠ unlabelled := by
  have hlt := numberOf_lt hlabel
  have hle := ncard_leastBelow_le arcs i
  rw [h.before v hv hlabel, h.next]
  refine ⟨hlt, fun heq => ?_⟩
  have hval := congrArg Fin.val heq
  rw [h.before v hv hlabel, show unlabelled.val = 4294967295 from rfl] at hval
  omega

/-- A start that has a label already. -/
theorem Numbered.skip (h : Numbered g arcs start.val state)
    (hlabel : state.1.label start ≠ unlabelled) : Numbered g arcs (start.val + 1) state := by
  have hbefore : (leastOf arcs start).val < start.val := by
    by_contra hge
    exact hlabel (h.after start (not_lt.mp hge))
  -- the start leads no component
  have hnot : ∀ v, (leastOf arcs v).val ≠ start.val := fun v heq => by
    have hv : leastOf arcs v = start := Fin.ext heq
    have hself : leastOf arcs start = start := hv ▸ leader_leader (reachable_equivalence arcs) v
    rw [hself] at hbefore
    exact lt_irrefl _ hbefore
  refine ⟨h.length, h.queue, ?_, fun v hv hleast => h.before v hv ?_, fun v hleast =>
    h.after v (Nat.le_of_succ_le hleast)⟩
  · rw [h.next]
    congr 1
    refine Set.ext fun v => and_congr_left fun hv => ?_
    have hne := hnot v
    rw [show leastOf arcs v = v from hv] at hne
    change v.val < start.val ↔ v.val < start.val + 1
    omega
  · have hne := hnot v
    omega

/-- A start without a label leads its component, and the next number is fresh. -/
theorem Numbered.fresh (h : Numbered g arcs start.val state) (hn : g.vertexCount < 2 ^ 32)
    (hstart : start.val < g.vertexCount) (hlabel : state.1.label start = unlabelled) :
    leastOf arcs start = start ∧ Fresh arcs state.1 start state.2 := by
  have hleast : leastOf arcs start = start := by
    refine le_antisymm (leader_le _ (SimpleGraph.Reachable.refl _)) (Fin.le_def.mpr ?_)
    by_contra hlt
    exact (h.label_lt start.isLt hstart (not_le.mp hlt)).2 hlabel
  have hne : state.2 ≠ unlabelled := fun heq => by
    have hval := congrArg Fin.val heq
    have hle := ncard_leastBelow_le arcs start.val
    rw [h.next, show unlabelled.val = 4294967295 from rfl] at hval
    omega
  refine ⟨hleast, hne, fun v heq => ?_, fun v hreach => h.after v ?_⟩
  · by_cases hv : v.val < g.vertexCount ∧ (leastOf arcs v).val < start.val
    · have hlt := (h.label_lt start.isLt hv.1 hv.2).1
      rw [heq] at hlt
      exact lt_irrefl _ hlt
    · refine hne (heq.symm.trans ?_)
      rw [not_and_or, not_lt, not_lt] at hv
      rcases hv with hout | hlater
      · rw [Flood.label, List.getD_eq_default _ _ (h.length.trans_le hout)]
      · exact h.after v hlater
  · have hsame : leastOf arcs start = leastOf arcs v :=
      (leader_eq_iff (reachable_equivalence arcs)).mpr hreach
    rw [← hsame, hleast]

/-- The labels after the flood of a start that leads its component. -/
theorem Numbered.flooded (h : Numbered g arcs start.val state) (hn : g.vertexCount < 2 ^ 32)
    (hstart : start.val < g.vertexCount) (hleast : leastOf arcs start = start) {s : Flood}
    (hlength : s.component.length = g.vertexCount) (hqueue : s.queue = [])
    (hlabels : ∀ v, ((graphOf arcs).Reachable start v → s.label v = state.2) ∧
      (¬ (graphOf arcs).Reachable start v → s.label v = state.1.label v)) :
    Numbered g arcs (start.val + 1) (s, state.2 + 1) := by
  have hreach : ∀ {v}, (graphOf arcs).Reachable start v ↔ leastOf arcs v = start := fun {v} => by
    rw [← leader_eq_iff (reachable_equivalence arcs)]
    exact ⟨fun heq => heq.symm.trans hleast, fun heq => hleast.trans heq.symm⟩
  have hset : leastBelow arcs (start.val + 1) = insert start (leastBelow arcs start.val) := by
    refine Set.ext fun v => ⟨fun hv => ?_, fun hv => ?_⟩
    · rcases Nat.lt_succ_iff_lt_or_eq.mp hv.1 with hlt | heq
      · exact Or.inr ⟨hlt, hv.2⟩
      · exact Or.inl (Fin.ext heq)
    · rcases hv with rfl | hv
      · exact ⟨Nat.lt_succ_self _, hleast⟩
      · exact ⟨Nat.lt_succ_of_lt hv.1, hv.2⟩
  have hcount : (leastBelow arcs (start.val + 1)).ncard = (leastBelow arcs start.val).ncard + 1 := by
    rw [hset, Set.ncard_insert_of_notMem fun hmem => lt_irrefl start.val hmem.1]
  have hle := ncard_leastBelow_le arcs start.val
  have hnext := h.next
  refine ⟨hlength, hqueue, ?_, fun v hv hlt => ?_, fun v hlater => ?_⟩
  · rw [hcount, ← hnext]
    exact Fin.val_add_one_of_lt' (by omega)
  · by_cases hv' : leastOf arcs v = start
    · rw [(hlabels v).1 (hreach.mpr hv'), hnext, numberOf, hv']
      rfl
    · rw [(hlabels v).2 fun hr => hv' (hreach.mp hr)]
      refine h.before v hv ?_
      have hne : (leastOf arcs v).val ≠ start.val := fun heq => hv' (Fin.ext heq)
      omega
  · rw [(hlabels v).2 fun hr => ?_]
    · exact h.after v (Nat.le_of_succ_le hlater)
    · rw [hreach.mp hr] at hlater
      exact absurd hlater (Nat.not_succ_le_self _)

/-- One turn of the loop over the starts. -/
theorem Numbered.componentTurn (h : Numbered g arcs start.val state) (hholds : g.Holds arcs)
    (hundirected : Undirected arcs) (hn : g.vertexCount < 2 ^ 32)
    (hstart : start.val < g.vertexCount) :
    Returns (fun fuel => componentTurn g fuel start state) (Numbered g arcs (start.val + 1)) := by
  unfold StaticComponents.componentTurn
  by_cases hlabel : state.1.label start = unlabelled
  · simp only [if_neg (not_not.mpr hlabel)]
    obtain ⟨hleast, hfresh⟩ := h.fresh hn hstart hlabel
    refine Returns.map ((returns_flood hfresh hholds hundirected h.length h.queue hstart).mono
      fun s hs => ?_)
    exact h.flooded hn hstart hleast hs.1 hs.2.1 hs.2.2
  · simp only [if_pos hlabel]
    exact Returns.pure (h.skip hlabel)

/-- The loop over the starts returns, and every vertex has the number of its component. -/
theorem returns_components (hholds : g.Holds arcs) (hundirected : Undirected arcs)
    (hn : g.vertexCount < 2 ^ 32) :
    Returns (fun fuel => countLoop g.vertexCount (StaticComponents.componentTurn g) fuel
      (0 : VertexId) (unvisited g, (0 : VertexId))) (Numbered g arcs g.vertexCount) :=
  returns_countLoop hn (Numbered g arcs)
    (fun _ _ hstart hinv => hinv.componentTurn hholds hundirected hn hstart) (Nat.zero_le _)
    (numbered_unvisited g arcs)

end Starts

/-- The vertices connected to a vertex. -/
def componentOf (g : CsrGraph) (v : VertexId) : Set VertexId := {w | g.edgeGraph.Reachable v w}

/-- The number of components that the vertices form. -/
noncomputable def componentCount (g : CsrGraph) : ℕ :=
  (componentOf g '' {v | v.val < g.vertexCount}).ncard

/-- Labels that number the components in the order of their least vertices. -/
structure NumbersComponents (g : CsrGraph) (labels : List VertexId) : Prop where
  length : labels.length = g.vertexCount
  equal : ∀ u v : VertexId, u.val < g.vertexCount → v.val < g.vertexCount →
    (labels.getD u 0 = labels.getD v 0 ↔ g.edgeGraph.Reachable u v)
  used : ∀ k : ℕ, (∃ v : VertexId, v.val < g.vertexCount ∧ (labels.getD v 0).val = k) ↔
    k < componentCount g
  order : ∀ u v least least' : VertexId, u.val < g.vertexCount → v.val < g.vertexCount →
    IsLeast (componentOf g u) least → IsLeast (componentOf g v) least' →
    (labels.getD u 0 < labels.getD v 0 ↔ least < least')

/-- The numbers of the components number them. -/
theorem Numbered.numbersComponents {g : CsrGraph} {arcs : ArcSet} {state : Flood × VertexId}
    (h : Numbered g arcs g.vertexCount state) (hholds : g.Holds arcs) :
    NumbersComponents g state.1.component := by
  have hleast : ∀ {v : VertexId}, v.val < g.vertexCount → (leastOf arcs v).val < g.vertexCount :=
    fun {v} hv => isLowerSet_below _ (leader_le _ (SimpleGraph.Reachable.refl v)) hv
  have hlabel : ∀ {v : VertexId}, v.val < g.vertexCount →
      (state.1.component.getD v 0).val = numberOf arcs v := fun {v} hv => by
    rw [← h.before v hv (hleast hv), Flood.label, List.getD_eq_getElem _ _ (h.length.symm ▸ hv),
      List.getD_eq_getElem _ _ (h.length.symm ▸ hv)]
  have hleader : ∀ {v least : VertexId}, IsLeast (componentOf g v) least → leastOf arcs v = least :=
    fun {v least} hmin => by
      refine hmin.unique ⟨?_, fun w hw => leader_le _ ?_⟩ |>.symm
      · rw [componentOf, hholds.edgeGraph_eq]
        exact leader_rel _ v
      · rw [componentOf, hholds.edgeGraph_eq] at hw
        exact hw
  refine ⟨h.length, fun u v hu hv => ?_, fun k => ?_, fun u v least least' hu hv hmin hmin' => ?_⟩
  · rw [Fin.ext_iff, hlabel hu, hlabel hv, hholds.edgeGraph_eq]
    exact number_leader_eq_iff _
  · have hcount : componentCount g = (leastBelow arcs g.vertexCount).ncard := by
      rw [componentCount, leastBelow, ← ncard_classes _ (isLowerSet_below _)]
      refine congrArg Set.ncard (Set.image_congr fun v _ => ?_)
      rw [componentOf, hholds.edgeGraph_eq]
    rw [hcount]
    constructor
    · rintro ⟨v, hv, rfl⟩
      rw [hlabel hv]
      exact numberOf_lt (hleast hv)
    · intro hk
      obtain ⟨l, hl, rfl⟩ := exists_number_eq _ (isLowerSet_below _) hk
      refine ⟨l, hl.1, (hlabel hl.1).trans ?_⟩
      rw [numberOf, show leastOf arcs l = l from hl.2]
  · rw [Fin.lt_def, hlabel hu, hlabel hv, ← hleader hmin, ← hleader hmin']
    exact number_lt_iff _ (leader_leader _ u) (leader_leader _ v)

/-- On every undirected static graph the labels of the components number them. -/
theorem components_numbered (edges : List (VertexId × VertexId))
    (hn : (CsrGraph.create edges false).vertexCount < 2 ^ 32 - 1) :
    Returns (fun fuel => connectedComponents (CsrGraph.create edges false) fuel) fun result =>
      ∃ labels, result = .ok labels ∧
        NumbersComponents (CsrGraph.create edges false) labels := by
  have hholds := CsrGraph.holds_create edges false
  have hundirected : Undirected (ofEdges false edges) := hholds.simple.undirected rfl
  unfold connectedComponents
  simp only [show (CsrGraph.create edges false).directed = false from rfl, Bool.false_eq_true,
    if_false]
  refine Returns.map ((returns_components hholds hundirected (by omega)).mono fun state hstate => ?_)
  exact ⟨_, rfl, hstate.numbersComponents hholds⟩

/-- More fuel does not change what the algorithm ends with. -/
theorem steady_connectedComponents (g : CsrGraph) : Steady (connectedComponents g) := by
  unfold connectedComponents
  by_cases hdirected : g.directed = true
  · simp only [if_pos hdirected]
    exact Steady.pure _
  · simp only [if_neg hdirected]
    refine (steady_countLoop _ (fun start state => ?_) _ _).map _
    unfold componentTurn
    split
    · exact Steady.pure _
    · exact (steady_while (fun s => Steady.pure (some (popQueue g state.2 s))) _).map _

/-- Two components, the second vertex alone in the middle. -/
theorem components_numbered_two :
    Returns (fun fuel => connectedComponents (CsrGraph.create [(0, 2)] false) fuel) fun result =>
      result = .ok [0, 1, 0] ∧ NumbersComponents (CsrGraph.create [(0, 2)] false) [0, 1, 0] := by
  have hnumbered := components_numbered [(0, 2)] (by rw [CsrGraph.vertexCount_create]; decide)
  have hsteady := steady_connectedComponents (CsrGraph.create [(0, 2)] false)
  have heval : connectedComponents (CsrGraph.create [(0, 2)] false) 10 = some (.ok [0, 1, 0]) := rfl
  obtain ⟨labels, hlabels, hnumbers⟩ := hnumbered.of_steady hsteady heval
  obtain rfl := Except.ok.inj hlabels
  exact hsteady.returns heval ⟨rfl, hnumbers⟩

end StaticComponents

end VeloGraphX
