import Mathlib
import VeloGraphX.Storage.DynamicGraphCalls

/-!
# The reverse view

One update decides both overlays, but it is judged by the forward compact row alone, while
the two directions are compacted independently. The reverse overlay of an arc is therefore
right unless an update restores the forward compact presence of an arc whose reverse compact
presence differs. This is the exact condition under which a batch keeps the views in
agreement.
-/

namespace VeloGraphX

open SortedList ArcSet LastWrite

/-- One request for an arc: its presence and its reverse override, judged by `base`. -/
def mirrorStep (base : Bool) (state : Bool × Option Bool) (b : Bool) : Bool × Option Bool :=
  if state.1 = b then state else (b, PackedDeltaStore.desiredOverride b base)

/-- Requests that all repeat the present state change nothing. -/
theorem foldl_mirrorStep_of_forall_eq {base p : Bool} {o : Option Bool} {requests : List Bool}
    (h : ∀ b ∈ requests, b = p) : requests.foldl (mirrorStep base) (p, o) = (p, o) := by
  induction requests with
  | nil => rfl
  | cons b rest ih =>
    have hb : p = b := (h b List.mem_cons_self).symm
    rw [List.foldl_cons, mirrorStep, if_pos hb]
    exact ih fun b' hb' => h b' (List.mem_cons_of_mem _ hb')

/-- After a change the reverse override is the one desired for the last request. -/
theorem foldl_mirrorStep (base : Bool) (o : Option Bool) {p : Bool} {requests : List Bool}
    (h : ∃ b ∈ requests, b ≠ p) :
    ∃ last, requests.getLast? = some last ∧
      requests.foldl (mirrorStep base) (p, o) =
        (last, PackedDeltaStore.desiredOverride last base) := by
  induction requests generalizing p o with
  | nil => exact absurd h (by simp)
  | cons b rest ih =>
    rw [List.foldl_cons, List.getLast?_cons]
    by_cases hb : p = b
    · have hrest : ∃ b' ∈ rest, b' ≠ p := by
        obtain ⟨b', hmem, hne⟩ := h
        rcases List.mem_cons.mp hmem with rfl | hmem
        · exact absurd hb.symm hne
        · exact ⟨b', hmem, hne⟩
      obtain ⟨last, hlast, hfold⟩ := ih o hrest
      rw [mirrorStep, if_pos hb, hlast]
      exact ⟨last, rfl, hfold⟩
    · rw [mirrorStep, if_neg hb]
      by_cases hrest : ∃ b' ∈ rest, b' ≠ b
      · obtain ⟨last, hlast, hfold⟩ := ih _ hrest
        rw [hlast]
        exact ⟨last, rfl, hfold⟩
      · have hall : ∀ b' ∈ rest, b' = b := by simpa using hrest
        rw [foldl_mirrorStep_of_forall_eq hall]
        cases hlast : rest.getLast? with
        | none => exact ⟨b, rfl, rfl⟩
        | some last =>
          rw [hall last (List.mem_of_getLast? hlast)]
          exact ⟨b, rfl, rfl⟩

namespace DynamicGraph

variable {D : Type} {g g' : DynamicGraph D} {arcs : ArcSet}

/-- The presence of an arc in the forward view and its override in the reverse overlay. -/
def mirrorState (g : DynamicGraph D) (u v : VertexId) : Bool × Option Bool :=
  (g.outgoing.has u v, g.incoming.delta.overrideFor v u)

/-- What stays the same while the operations of a batch run. -/
structure CompactKept (g g' : DynamicGraph D) : Prop where
  outgoing : ∀ u, g'.outgoing.compactRow u = g.outgoing.compactRow u
  incoming : ∀ v, g'.incoming.compactRow v = g.incoming.compactRow v
  reverse : g.incoming.WellFormed → g'.incoming.WellFormed

/-- Steps that keep the compact rows compose. -/
theorem CompactKept.trans {g'' : DynamicGraph D} (h : CompactKept g g')
    (h' : CompactKept g' g'') : CompactKept g g'' :=
  ⟨fun u => (h'.outgoing u).trans (h.outgoing u), fun v => (h'.incoming v).trans (h.incoming v),
    fun hwf => h'.reverse (h.reverse hwf)⟩

/-- Making room for a vertex shows in neither view. -/
theorem mirror_ensureVertex (hout : g.outgoing.base.Shape) (hin : g.incoming.base.Shape)
    (v : VertexId) : CompactKept g (g.ensureVertex v) ∧
      ∀ w x, (g.ensureVertex v).mirrorState w x = g.mirrorState w x := by
  unfold ensureVertex
  dsimp only
  split
  · exact ⟨⟨fun _ => rfl, fun _ => rfl, id⟩, fun _ _ => rfl⟩
  · refine ⟨⟨Side.compactRow_resizeVertices hout _, Side.compactRow_resizeVertices hin _,
      fun hwf => hwf.resizeVertices _⟩, fun w x => ?_⟩
    exact Prod.ext (Side.has_resizeVertices hout _ _ _) (Side.overrideFor_resizeVertices _ _ _ _)

/-- Setting one arc is a request for that arc in both views. -/
theorem ArcEffect.mirror {u v : VertexId} {b : Bool} (h : ArcEffect g g' u v b) :
    CompactKept g g' ∧ ∀ w x, g'.mirrorState w x =
      if w = u ∧ x = v then
        mirrorStep (decide (x ∈ g.outgoing.compactRow w)) (g.mirrorState w x) b
      else g.mirrorState w x := by
  refine ⟨⟨h.outgoing.compactRow, h.incoming.compactRow, h.incoming.wellFormed⟩, fun w x => ?_⟩
  have hhas := h.outgoing.has w x
  rw [Side.getD_desiredOverride] at hhas
  have hover := h.incoming.overrideFor x w
  by_cases hwx : w = u ∧ x = v
  · rw [if_pos hwx] at hhas ⊢
    rw [if_pos hwx.symm] at hover
    obtain ⟨rfl, rfl⟩ := hwx
    unfold mirrorState mirrorStep
    dsimp only
    rw [hhas, hover]
    by_cases hsame : g.outgoing.has w x = b
    · rw [if_pos hsame, if_pos hsame, hsame]
    · rw [if_neg hsame, if_neg hsame]
  · rw [if_neg hwx] at hhas ⊢
    rw [if_neg fun hxw => hwx hxw.symm] at hover
    exact Prod.ext hhas hover

/-- One operation is a request for each arc it writes. -/
theorem Refines.mirror_applyUnversioned (h : Refines g arcs) (hin : g.incoming.WellFormed)
    (op : EdgeUpdate) : CompactKept g (g.applyUnversioned op) ∧
      ∀ w x, (g.applyUnversioned op).mirrorState w x =
        (writeOn g.directed w x op).elim (g.mirrorState w x)
          (mirrorStep (decide (x ∈ g.outgoing.compactRow w)) (g.mirrorState w x)) := by
  unfold DynamicGraph.applyUnversioned
  by_cases hloop : op.src = op.dst
  · rw [if_pos hloop]
    refine ⟨⟨fun _ => rfl, fun _ => rfl, id⟩, fun w x => ?_⟩
    rw [writeOn, if_neg fun hop => hop.1 hloop]
    rfl
  · rw [if_neg hloop]
    dsimp only
    obtain ⟨hgrown, -⟩ := h.toRepresents.ensureVertex (max op.src op.dst)
    obtain ⟨hkept₀, hsame₀⟩ := mirror_ensureVertex h.outgoing.shape hin.shape (max op.src op.dst)
    have hdirected₀ := directed_ensureVertex g (max op.src op.dst)
    generalize g.ensureVertex (max op.src op.dst) = g₀ at *
    have heffect₁ := applyArc_spec hgrown.outgoing hgrown.tight hgrown.incoming op.src op.dst op.add
    obtain ⟨hrep₁, -, hdirected₁, -⟩ := hgrown.applyArc op.src op.dst op.add
    obtain ⟨hkept₁, hstep₁⟩ := heffect₁.mirror
    generalize g₀.applyArc op.src op.dst op.add = g₁ at *
    simp only [hsame₀, hkept₀.outgoing] at hstep₁
    by_cases hdirected : g.directed = true
    · rw [if_pos (by rw [hdirected₁, hdirected₀, hdirected])]
      refine ⟨hkept₀.trans hkept₁, fun w x => ?_⟩
      rw [hstep₁, writeOn]
      by_cases hforth : w = op.src ∧ x = op.dst
      · rw [if_pos hforth, if_pos ⟨hloop, Or.inl ⟨hforth.1.symm, hforth.2.symm⟩⟩]
        rfl
      · rw [if_neg hforth, if_neg]
        · rfl
        · intro hop
          rcases hop.2 with ⟨hw, hx⟩ | ⟨hundirected, -⟩
          · exact hforth ⟨hw.symm, hx.symm⟩
          · exact Bool.noConfusion (hdirected.symm.trans hundirected)
    · have hundirected : g.directed = false := by simpa using hdirected
      have heffect₂ := applyArc_spec hrep₁.outgoing hrep₁.tight hrep₁.incoming op.dst op.src op.add
      obtain ⟨hkept₂, hstep₂⟩ := heffect₂.mirror
      rw [if_neg (by rw [hdirected₁, hdirected₀]; exact hdirected)]
      refine ⟨(hkept₀.trans hkept₁).trans hkept₂, fun w x => ?_⟩
      rw [hstep₂, writeOn]
      simp only [hstep₁, hkept₁.outgoing, hkept₀.outgoing]
      by_cases hback : w = op.dst ∧ x = op.src
      · rw [if_pos hback, if_neg fun hforth => hloop (hforth.1.symm.trans hback.1),
          if_pos ⟨hloop, Or.inr ⟨hundirected, hback.1.symm, hback.2.symm⟩⟩]
        rfl
      · rw [if_neg hback]
        by_cases hforth : w = op.src ∧ x = op.dst
        · rw [if_pos hforth, if_pos ⟨hloop, Or.inl ⟨hforth.1.symm, hforth.2.symm⟩⟩]
          rfl
        · rw [if_neg hforth, if_neg]
          · rfl
          · intro hop
            rcases hop.2 with ⟨hw, hx⟩ | ⟨-, hw, hx⟩
            · exact hforth ⟨hw.symm, hx.symm⟩
            · exact hback ⟨hw.symm, hx.symm⟩

/-- The operations of a batch are requests for each arc, in order. -/
theorem Refines.mirror_foldl (h : Refines g arcs) (hin : g.incoming.WellFormed)
    (updates : List EdgeUpdate) :
    CompactKept g (updates.foldl DynamicGraph.applyUnversioned g) ∧
      ∀ w x, (updates.foldl DynamicGraph.applyUnversioned g).mirrorState w x =
        (requests g.directed updates w x).foldl
          (mirrorStep (decide (x ∈ g.outgoing.compactRow w))) (g.mirrorState w x) := by
  induction updates generalizing g arcs with
  | nil => exact ⟨⟨fun _ => rfl, fun _ => rfl, id⟩, fun _ _ => rfl⟩
  | cons op rest ih =>
    obtain ⟨hop, -, hdirected, -⟩ := h.applyUnversioned op
    obtain ⟨hkept, hstep⟩ := h.mirror_applyUnversioned hin op
    obtain ⟨hkept', hrest⟩ := ih hop (hkept.reverse hin)
    refine ⟨hkept.trans hkept', fun w x => ?_⟩
    rw [List.foldl_cons, hrest, hdirected, hkept.outgoing, hstep]
    unfold requests
    cases hwrite : writeOn g.directed w x op with
    | none => rw [List.filterMap_cons_none hwrite, Option.elim_none]
    | some b => rw [List.filterMap_cons_some hwrite, Option.elim_some, List.foldl_cons]

/-- The views agree on existing vertices, and all rows ascend. -/
def ViewsAgree (g : DynamicGraph D) : Prop :=
  ∀ u v : VertexId, u.val < g.vertexCount → v.val < g.vertexCount →
    (v ∈ g.neighbors u ↔ u ∈ g.inNeighbors v) ∧
      Ascending id (g.neighbors u) ∧ Ascending id (g.inNeighbors v)

/-- The reverse direction is well formed too and has every arc the other way round. -/
structure Mirrored (g : DynamicGraph D) (arcs : ArcSet) : Prop extends Refines g arcs where
  reverse : g.incoming.WellFormed
  agree : ∀ u v, g.incoming.has v u = g.outgoing.has u v

/-- Mirrored views agree. -/
theorem Mirrored.viewsAgree (h : Mirrored g arcs) : g.ViewsAgree := by
  intro u v _ _
  refine ⟨?_, h.ascending_neighbors u,
    Side.ascending_materializeRow h.reverse.delta (h.reverse.ascending v)⟩
  rw [neighbors, Side.mem_materializeRow h.outgoing.delta (h.outgoing.ascending u), inNeighbors,
    Side.mem_materializeRow h.reverse.delta (h.reverse.ascending v), h.agree]

/-- The condition on a batch: an arc that some operation asks to change, and whose last
operation asks for its forward compact presence, has the same reverse compact presence. -/
def Settles (g : DynamicGraph D) (batch : UpdateBatch) : Prop :=
  ∀ u v : VertexId,
    (∃ b ∈ requests g.directed batch.updates u v, b ≠ g.hasEdge u v) →
    (requests g.directed batch.updates u v).getLast? = some (decide (v ∈ g.compactNeighbors u)) →
    (u ∈ g.compactInNeighbors v ↔ v ∈ g.compactNeighbors u)

/-- After the operations of a batch an arc is mirrored exactly when the batch settles it. -/
theorem Mirrored.foldl_agree_iff (h : Mirrored g arcs) (updates : List EdgeUpdate)
    (u v : VertexId) :
    (updates.foldl applyUnversioned g).incoming.has v u =
        (updates.foldl applyUnversioned g).outgoing.has u v ↔
      ((∃ b ∈ requests g.directed updates u v, b ≠ g.hasEdge u v) →
        (requests g.directed updates u v).getLast? =
          some (decide (v ∈ g.compactNeighbors u)) →
        (u ∈ g.compactInNeighbors v ↔ v ∈ g.compactNeighbors u)) := by
  obtain ⟨hkept, hfold⟩ := h.toRefines.mirror_foldl h.reverse updates
  have hstate := hfold u v
  have hhas : g.hasEdge u v = g.outgoing.has u v := (h.hasEdge u v).trans (h.has u v).symm
  have hnew : (updates.foldl applyUnversioned g).incoming.has v u =
      ((updates.foldl applyUnversioned g).mirrorState u v).2.getD
        (decide (u ∈ g.incoming.compactRow v)) := by
    rw [Side.has, hkept.incoming]
    rfl
  have hold : (updates.foldl applyUnversioned g).outgoing.has u v =
      ((updates.foldl applyUnversioned g).mirrorState u v).1 := rfl
  rw [hnew, hold, hstate, hhas, compactNeighbors, compactInNeighbors, Side.compactNeighbors_eq,
    Side.compactNeighbors_eq]
  by_cases hchange : ∃ b ∈ requests g.directed updates u v, b ≠ g.outgoing.has u v
  · obtain ⟨last, hlast, hpair⟩ := foldl_mirrorStep (decide (v ∈ g.outgoing.compactRow u))
      (g.incoming.delta.overrideFor v u) hchange
    rw [mirrorState, hpair, hlast]
    unfold PackedDeltaStore.desiredOverride
    by_cases hbase : last = decide (v ∈ g.outgoing.compactRow u)
    · rw [hbase, if_pos rfl, Option.getD_none, decide_eq_decide]
      exact ⟨fun hiff _ _ => hiff, fun himp => himp hchange rfl⟩
    · refine iff_of_true (by simp only [if_neg hbase, Option.getD_some]) fun _ hsome => ?_
      exact absurd (Option.some.inj hsome) hbase
  · have hall : ∀ b ∈ requests g.directed updates u v, b = g.outgoing.has u v := by
      simpa using hchange
    rw [mirrorState, foldl_mirrorStep_of_forall_eq hall]
    exact iff_of_true (h.agree u v) fun hex => absurd hex hchange

/-- Maintenance keeps mirrored views mirrored, and shows in no view. -/
theorem kept_agree_iff (h : Refines g arcs) (hin : g.incoming.WellFormed)
    (hkept : Maintained g g') (u v : VertexId) :
    (g'.incoming.has v u = g'.outgoing.has u v) ↔
      (g.incoming.has v u = g.outgoing.has u v) := by
  rw [hkept.incoming.has hin, hkept.outgoing.has h.outgoing]

/-- Maintenance keeps mirrored views mirrored. -/
theorem Mirrored.maintained (h : Mirrored g arcs) (hkept : Maintained g g') :
    Mirrored g' arcs :=
  ⟨(h.toRefines.maintained hkept).1, hkept.incoming.wellFormed h.reverse,
    fun u v => (kept_agree_iff h.toRefines h.reverse hkept u v).mpr (h.agree u v)⟩

/-- After a batch an arc is mirrored exactly when the batch settles it. -/
theorem Mirrored.apply_agree_iff [DoubleArith D] (h : Mirrored g arcs) (batch : UpdateBatch)
    (u v : VertexId) :
    ((g.apply batch).incoming.WellFormed) ∧
      ((g.apply batch).incoming.has v u = (g.apply batch).outgoing.has u v ↔
        ((∃ b ∈ requests g.directed batch.updates u v, b ≠ g.hasEdge u v) →
          (requests g.directed batch.updates u v).getLast? =
            some (decide (v ∈ g.compactNeighbors u)) →
          (u ∈ g.compactInNeighbors v ↔ v ∈ g.compactNeighbors u))) := by
  obtain ⟨hfold, -⟩ := h.toRefines.foldl_applyUnversioned batch.updates
  have hreverse := (h.toRefines.mirror_foldl h.reverse batch.updates).1.reverse h.reverse
  have hiff := h.foldl_agree_iff batch.updates u v
  unfold DynamicGraph.apply
  dsimp only
  split
  · exact ⟨hreverse, hiff⟩
  · generalize hg₁ : DynamicGraph.mk _ _ _ _ = g₁
    have hrefines : Refines g₁ (applyAll g.directed arcs batch.updates) := by
      subst hg₁
      exact ⟨⟨hfold.outgoing, hfold.tight, hfold.incoming, hfold.has⟩, hfold.simple⟩
    have hreverse₁ : g₁.incoming.WellFormed := hg₁ ▸ hreverse
    have hkept := automaticStorageMaintenance_spec hrefines.outgoing.toTracked hrefines.incoming
    refine ⟨hkept.incoming.wellFormed hreverse₁, ?_⟩
    rw [kept_agree_iff hrefines hreverse₁ hkept, ← hiff, ← hg₁]

/-- A batch that settles every arc keeps the views mirrored. -/
theorem Mirrored.apply [DoubleArith D] (h : Mirrored g arcs) {batch : UpdateBatch}
    (hsettles : g.Settles batch) :
    Mirrored (g.apply batch) (applyAll g.directed arcs batch.updates) :=
  ⟨(h.toRefines.apply batch).1, (h.apply_agree_iff batch 0 0).1,
    fun u v => (h.apply_agree_iff batch u v).2.mpr (hsettles u v)⟩

/-- A batch after which the views agree settles every arc. -/
theorem Mirrored.settles [DoubleArith D] (h : Mirrored g arcs) {batch : UpdateBatch}
    (hagree : (g.apply batch).ViewsAgree) : g.Settles batch := by
  intro u v hchange
  obtain ⟨hrefines, hcount, -⟩ := h.toRefines.apply batch
  obtain ⟨hreverse, hiff⟩ := h.apply_agree_iff batch u v
  obtain ⟨b, hb, hne⟩ := hchange
  obtain ⟨hu, hv⟩ := lt_growAll_of_mem_requests hb g.vertexCount
  have hrows := (hagree u v (hcount ▸ hu) (hcount ▸ hv)).1
  rw [neighbors, Side.mem_materializeRow hrefines.outgoing.delta (hrefines.outgoing.ascending u),
    inNeighbors, Side.mem_materializeRow hreverse.delta (hreverse.ascending v)] at hrows
  exact hiff.mp (Bool.eq_iff_iff.mpr hrows.symm) ⟨b, hb, hne⟩

/-- Making room for a vertex keeps the views mirrored. -/
theorem Mirrored.ensureVertex (h : Mirrored g arcs) (v : VertexId) :
    Mirrored (g.ensureVertex v) arcs := by
  obtain ⟨hrep, hcount⟩ := h.toRepresents.ensureVertex v
  obtain ⟨hkept, hsame⟩ := mirror_ensureVertex h.outgoing.shape h.reverse.shape v
  refine ⟨⟨hrep, ?_⟩, hkept.reverse h.reverse, fun u w => ?_⟩
  · rw [directed_ensureVertex, hcount]
    exact h.simple.mono (le_max_left _ _)
  · have hstate := hsame u w
    have hhas : (g.ensureVertex v).outgoing.has u w = g.outgoing.has u w := congrArg Prod.fst hstate
    have hover : (g.ensureVertex v).incoming.delta.overrideFor w u =
        g.incoming.delta.overrideFor w u := congrArg Prod.snd hstate
    rw [hhas, Side.has, hover, hkept.incoming]
    exact h.agree u w

/-- A bulk load of a graph whose vertices all have ids makes the views mirrored. -/
theorem Mirrored.bulkLoadEdges (h : Mirrored g arcs) (hcount : g.vertexCount ≤ 2 ^ 32)
    (edges : List (VertexId × VertexId)) :
    Mirrored (g.bulkLoadEdges edges) (ofEdges g.directed edges) := by
  obtain ⟨hrefines, -⟩ := h.toRefines.bulkLoadEdges edges
  obtain ⟨g₁, -, -, heq⟩ := bulkLoadEdges_eq h.toRepresents edges
  have hsimple := simple_ofEdges g.directed g.vertexCount edges
  have hholds := SegmentedCsr.buildTransposeFrom_spec
    (holds_loadArcs g.vertexCount g.directed edges) (growAll_le hcount _)
    fun u v hmem => (hsimple.within u v hmem).2
  obtain ⟨hwf, -, hhas⟩ := Side.wellFormed_loadSide g₁.incoming hholds
    (growAll g.vertexCount (insertions edges))
  refine ⟨hrefines, ?_, fun u v => ?_⟩
  · rw [heq]
    exact hwf
  · rw [hrefines.has, Bool.eq_iff_iff, present_eq_true, heq]
    exact hhas v u

/-- The constructor yields mirrored views. -/
theorem mirrored_create (vertices : ℕ) (directed : Bool) :
    Mirrored (create vertices directed : DynamicGraph D) ∅ := by
  obtain ⟨hwf, -, hhas⟩ := Side.wellFormed_create vertices
  exact ⟨(refines_create vertices directed).1, hwf, fun u v => (hhas v u).trans (hhas u v).symm⟩

end DynamicGraph

namespace Call

variable {D : Type} [DoubleArith D] {g : DynamicGraph D} {arcs : ArcSet}

/-- The condition on a call: a batch settles every arc, a bulk load meets at most `2 ^ 32`
vertices. -/
def Settled (g : DynamicGraph D) : Call D → Prop
  | bulkLoadEdges _ => g.vertexCount ≤ 2 ^ 32
  | apply batch => g.Settles batch
  | addEdge u v => g.Settles (UpdateBatch.add {} u v)
  | removeEdge u v => g.Settles (UpdateBatch.remove {} u v)
  | ensureVertex _ | maybeCompact _ | compact => True

/-- Every call of a run meets its condition in the state in which it is made. -/
def AllSettled (g : DynamicGraph D) : List (Call D) → Prop
  | [] => True
  | call :: rest => call.Settled g ∧ AllSettled (call.exec g) rest

/-- A call that meets its condition keeps the views mirrored. -/
theorem mirrored_exec (h : g.Mirrored arcs) {call : Call D} (hsettled : call.Settled g) :
    (call.exec g).Mirrored (call.effect g.directed arcs) := by
  cases call with
  | ensureVertex v => exact h.ensureVertex v
  | bulkLoadEdges edges => exact h.bulkLoadEdges hsettled edges
  | apply batch => exact h.apply hsettled
  | addEdge u v => exact h.apply hsettled
  | removeEdge u v => exact h.apply hsettled
  | maybeCompact threshold =>
    exact h.maintained (DynamicGraph.maybeCompact_spec h.outgoing.toTracked h.incoming threshold)
  | compact => exact h.maintained (DynamicGraph.compact_spec h.outgoing.toTracked h.incoming).1

/-- A call after which the views agree met its condition, if the vertices have ids. -/
theorem settled_of_viewsAgree (h : g.Mirrored arcs) (hcount : g.vertexCount ≤ 2 ^ 32)
    {call : Call D} (hagree : (call.exec g).ViewsAgree) : call.Settled g := by
  cases call with
  | ensureVertex v => exact trivial
  | bulkLoadEdges edges => exact hcount
  | apply batch => exact h.settles hagree
  | addEdge u v => exact h.settles hagree
  | removeEdge u v => exact h.settles hagree
  | maybeCompact threshold => exact trivial
  | compact => exact trivial

/-- In a run all of whose calls meet their condition the views agree in every state. -/
theorem viewsAgree_of_allSettled (h : g.Mirrored arcs) {calls : List (Call D)}
    (hsettled : AllSettled g calls) (k : ℕ) : (run g (calls.take k)).ViewsAgree := by
  induction calls generalizing g arcs k with
  | nil => simpa [run] using h.viewsAgree
  | cons call rest ih =>
    cases k with
    | zero => exact h.viewsAgree
    | succ k => exact ih (mirrored_exec h hsettled.1) hsettled.2 k

/-- A run in all of whose states the views agree meets the condition at every call. -/
theorem allSettled_of_viewsAgree (h : g.Mirrored arcs) (hcount : g.vertexCount ≤ 2 ^ 32)
    {calls : List (Call D)} (hagree : ∀ k, (run g (calls.take k)).ViewsAgree) :
    AllSettled g calls := by
  induction calls generalizing g arcs with
  | nil => exact trivial
  | cons call rest ih =>
    have hsettled := settled_of_viewsAgree h hcount (hagree 1)
    exact ⟨hsettled, ih (mirrored_exec h hsettled) (h.toRefines.vertexCount_exec_le hcount call)
      fun k => hagree (k + 1)⟩

end Call

namespace DynamicGraph

/-- The views agree in every state of a run whose calls all meet the condition; on graphs
whose vertices have ids the condition is also necessary. -/
theorem viewsAgree_iff_allSettled {D : Type} [DoubleArith D] (vertices : ℕ) (directed : Bool)
    (calls : List (Call D)) :
    (Call.AllSettled (create vertices directed) calls →
        ∀ k, (Call.run (create vertices directed) (calls.take k)).ViewsAgree) ∧
      (vertices ≤ 2 ^ 32 →
        (∀ k, (Call.run (create vertices directed) (calls.take k)).ViewsAgree) →
        Call.AllSettled (create vertices directed) calls) := by
  have h := @mirrored_create D vertices directed
  have hcount := (@refines_create D vertices directed).2
  exact ⟨fun hsettled => Call.viewsAgree_of_allSettled h hsettled,
    fun hle => Call.allSettled_of_viewsAgree h (hcount.le.trans hle)⟩

/-- In a new graph all compact rows are empty, so insertions meet the condition. -/
theorem settles_create (vertices : ℕ) (directed : Bool) {batch : UpdateBatch}
    (hadd : ∀ op ∈ batch.updates, op.add = true) :
    (create vertices directed : DynamicGraph D).Settles batch := by
  intro u v _ hlast
  obtain ⟨op, hop, hwrite⟩ := List.mem_filterMap.mp (List.mem_of_getLast? hlast)
  have hnil : (create vertices directed : DynamicGraph D).compactNeighbors u = [] := by
    change (Side.resizeVertices {} vertices).compactNeighbors u = []
    rw [Side.compactNeighbors_eq, Side.compactRow_resizeVertices SegmentedCsr.shape_empty]
    rfl
  rw [hnil, decide_eq_false List.not_mem_nil] at hwrite
  unfold writeOn at hwrite
  split at hwrite
  · exact absurd ((hadd op hop).symm.trans (Option.some.inj hwrite)) (by decide)
  · exact absurd hwrite (by simp)

/-- A single operation on a directed graph meets the condition where its own arc does. -/
theorem settles_single {g : DynamicGraph D} (hdirected : g.directed = true) (op : EdgeUpdate)
    (hsettled : op.add = decide (op.dst ∈ g.compactNeighbors op.src) →
      (op.src ∈ g.compactInNeighbors op.dst ↔ op.dst ∈ g.compactNeighbors op.src)) :
    g.Settles ⟨[op]⟩ := by
  intro u v _ hlast
  obtain ⟨_, hop, hwrite⟩ := List.mem_filterMap.mp (List.mem_of_getLast? hlast)
  obtain rfl := List.mem_singleton.mp hop
  rw [writeOn, hdirected] at hwrite
  split at hwrite
  · rename_i hends
    obtain ⟨-, ⟨rfl, rfl⟩ | ⟨hfalse, -⟩⟩ := hends
    · exact hsettled (Option.some.inj hwrite)
    · exact absurd hfalse (by decide)
  · exact absurd hwrite (by simp)

/-- An arc that is removed from compacted rows and put back. -/
theorem viewsAgree_restored :
    let g : DynamicGraph ℚ := Call.run (create 0 true)
      [.addEdge 0 2, .addEdge 1 2, .compact, .removeEdge 0 2, .addEdge 0 2]
    g.ViewsAgree ∧ g.compactNeighbors 0 = [2] ∧ g.neighbors 0 = [2] ∧ g.inNeighbors 2 = [0, 1] := by
  have hsettled : Call.AllSettled (create 0 true : DynamicGraph ℚ)
      [.addEdge 0 2, .addEdge 1 2, .compact, .removeEdge 0 2, .addEdge 0 2] := by
    refine ⟨settles_single ?_ _ ?_, settles_single ?_ _ ?_, trivial, settles_single ?_ _ ?_,
      settles_single ?_ _ ?_, trivial⟩ <;> decide +kernel
  exact ⟨(viewsAgree_iff_allSettled 0 true _).1 hsettled 5, by decide +kernel, by decide +kernel,
    by decide +kernel⟩

/-- Two insertions fill reverse row `2` densely enough to be compacted alone; the removal of
one of them is then judged by the sparse forward row and leaves the reverse row as it is. -/
theorem not_viewsAgree :
    ¬ ∀ (vertices : ℕ) (directed : Bool) (calls : List (Call ℚ)),
      (Call.run (create vertices directed) calls).ViewsAgree := by
  intro h
  have hrun := h 0 true [.addEdge 0 2, .addEdge 1 2, .maybeCompact 0.25, .removeEdge 0 2] 0 2
    (by decide +kernel) (by decide +kernel)
  have hin : (0 : VertexId) ∈ (Call.run (create 0 true : DynamicGraph ℚ)
      [.addEdge 0 2, .addEdge 1 2, .maybeCompact 0.25, .removeEdge 0 2]).inNeighbors 2 := by
    decide +kernel
  have hout : (2 : VertexId) ∉ (Call.run (create 0 true : DynamicGraph ℚ)
      [.addEdge 0 2, .addEdge 1 2, .maybeCompact 0.25, .removeEdge 0 2]).neighbors 0 := by
    decide +kernel
  exact hout (hrun.1.mpr hin)

end DynamicGraph

end VeloGraphX
