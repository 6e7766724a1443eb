import Mathlib
import VeloGraphX.Model.ArcSet
import VeloGraphX.Storage.EffectiveRows

/-!
# The forward view refines the abstract arc set

The compact rows, the overlay and the counters of the forward direction together represent
one set of arcs. Every mutation acts on that set as its abstract counterpart does; every
storage operation leaves it alone, whatever the double-precision heuristics decide.
-/

namespace VeloGraphX

open SortedList ArcSet

namespace DynamicGraph

variable {D : Type} {g g' : DynamicGraph D} {arcs : ArcSet} {u v : VertexId}

/-- What setting one arc does to both directions. -/
structure ArcEffect (g g' : DynamicGraph D) (u v : VertexId) (present : Bool) : Prop where
  directed : g'.directed = g.directed
  version : g'.version = g.version
  outgoing : Side.Overridden g.outgoing g'.outgoing u v
    (PackedDeltaStore.desiredOverride present (decide (v ∈ g.outgoing.compactRow u)))
  incoming : Side.Overridden g.incoming g'.incoming v u
    (if g.outgoing.has u v = present then g.incoming.delta.overrideFor v u
      else PackedDeltaStore.desiredOverride present (decide (v ∈ g.outgoing.compactRow u)))

/-- Both overlays are judged by the forward compact row. -/
theorem applyArc_spec (hout : g.outgoing.WellFormed) (htight : g.outgoing.Tight)
    (hin : g.incoming.Tracked) (u v : VertexId) (present : Bool) :
    ArcEffect g (g.applyArc u v present) u v present := by
  have hset := hout.delta.setIfChanged (u := u) (v := v) present
    (decide (v ∈ g.outgoing.compactRow u))
  change if g.outgoing.has u v = present then _ else _ at hset
  unfold applyArc
  rw [Side.compactContains_eq (hout.ascending u)]
  dsimp only
  by_cases hhas : g.outgoing.has u v = present
  · rw [if_pos hhas] at hset
    rw [hset]
    dsimp only
    have hover := hout.toTracked.overridden_resizeVertices (u + 1) u v
    rw [htight.overrideFor_eq hout.toTracked, hhas] at hover
    refine ⟨rfl, rfl, hover, ?_⟩
    rw [if_pos hhas]
    exact hin.overridden_self v u
  · rw [if_neg hhas] at hset
    rw [hset.1, if_pos rfl]
    refine ⟨rfl, rfl, hout.toTracked.overridden hset.2, ?_⟩
    rw [if_neg hhas]
    exact hin.overridden (hin.delta.set present _)

/-- The forward direction satisfies its invariant, records only differences, and has exactly
the given arcs; the reverse overlay is tracked. -/
structure Represents (g : DynamicGraph D) (arcs : ArcSet) : Prop where
  outgoing : g.outgoing.WellFormed
  tight : g.outgoing.Tight
  incoming : g.incoming.Tracked
  has : ∀ u v, g.outgoing.has u v = present arcs u v

/-- The represented arcs obey the simple-graph discipline. -/
structure Refines (g : DynamicGraph D) (arcs : ArcSet) : Prop extends Represents g arcs where
  simple : Simple g.directed g.vertexCount arcs

/-- The larger of two ids, as a number. -/
theorem val_max (u v : VertexId) : (max u v).val = max u.val v.val := by
  rcases le_total u v with h | h
  · rw [max_eq_right h, max_eq_right (Fin.le_def.mp h)]
  · rw [max_eq_left h, max_eq_left (Fin.le_def.mp h)]

/-- The directedness never changes. -/
@[simp] theorem directed_ensureVertex (g : DynamicGraph D) (v : VertexId) :
    (g.ensureVertex v).directed = g.directed := by
  unfold ensureVertex
  dsimp only
  split <;> rfl

/-- Making room for a vertex is not an update. -/
@[simp] theorem version_ensureVertex (g : DynamicGraph D) (v : VertexId) :
    (g.ensureVertex v).version = g.version := by
  unfold ensureVertex
  dsimp only
  split <;> rfl

/-- Making room for a vertex changes no arc. -/
theorem Represents.ensureVertex (h : Represents g arcs) (v : VertexId) :
    Represents (g.ensureVertex v) arcs ∧
      (g.ensureVertex v).vertexCount = max g.vertexCount (v.val + 1) := by
  unfold DynamicGraph.ensureVertex
  dsimp only
  split
  · exact ⟨h, (max_eq_left ‹_›).symm⟩
  · refine ⟨⟨h.outgoing.resizeVertices _, h.tight.resizeVertices h.outgoing.shape _,
      h.incoming.resizeVertices _, fun u w => ?_⟩, (h.outgoing.shape.resizeVertices _).2⟩
    exact (Side.has_resizeVertices h.outgoing.shape _ _ _).trans (h.has u w)

/-- Setting one arc changes the presence of that arc only. -/
theorem Represents.applyArc (h : Represents g arcs) (u v : VertexId) (b : Bool) :
    Represents (g.applyArc u v b) (setArc arcs (u, v) b) ∧
      (g.applyArc u v b).vertexCount = g.vertexCount ∧
      (g.applyArc u v b).directed = g.directed ∧ (g.applyArc u v b).version = g.version := by
  have heffect := applyArc_spec h.outgoing h.tight h.incoming u v b
  refine ⟨⟨heffect.outgoing.wellFormed h.outgoing,
    heffect.outgoing.tight h.outgoing.toTracked h.tight, heffect.incoming.tracked,
    fun w x => ?_⟩, congrArg SegmentedCsr.vertexCount heffect.outgoing.base, heffect.directed,
    heffect.version⟩
  rw [heffect.outgoing.has, Side.getD_desiredOverride, present_setArc, h.has]
  simp only [Prod.mk.injEq]

/-- One operation acts on the represented arcs as on the abstract graph. -/
theorem Refines.applyUnversioned (h : Refines g arcs) (op : EdgeUpdate) :
    Refines (g.applyUnversioned op) (applyOp g.directed arcs op) ∧
      (g.applyUnversioned op).vertexCount = growBy g.vertexCount op ∧
      (g.applyUnversioned op).directed = g.directed ∧
      (g.applyUnversioned op).version = g.version := by
  suffices hmain : Represents (g.applyUnversioned op) (applyOp g.directed arcs op) ∧
      (g.applyUnversioned op).vertexCount = growBy g.vertexCount op ∧
      (g.applyUnversioned op).directed = g.directed ∧
      (g.applyUnversioned op).version = g.version by
    obtain ⟨hrep, hcount, hdirected, hversion⟩ := hmain
    refine ⟨⟨hrep, ?_⟩, hcount, hdirected, hversion⟩
    rw [hdirected, hcount]
    exact h.simple.applyOp op
  unfold DynamicGraph.applyUnversioned applyOp growBy
  by_cases hloop : op.src = op.dst
  · simp only [if_pos hloop, and_true]
    exact h.toRepresents
  · simp only [if_neg hloop]
    obtain ⟨hgrown, hcount⟩ := h.toRepresents.ensureVertex (max op.src op.dst)
    obtain ⟨hforth, hcount', hdirected, hversion⟩ := hgrown.applyArc op.src op.dst op.add
    rw [directed_ensureVertex] at hdirected
    rw [version_ensureVertex] at hversion
    rw [hcount, val_max] at hcount'
    generalize (g.ensureVertex (max op.src op.dst)).applyArc op.src op.dst op.add = g₁ at *
    by_cases hd : g.directed = true
    · rw [if_pos (hdirected.trans hd), if_pos hd]
      exact ⟨hforth, hcount', hdirected, hversion⟩
    · obtain ⟨hback, hcount'', hdirected', hversion'⟩ := hforth.applyArc op.dst op.src op.add
      rw [if_neg (hdirected.symm ▸ hd), if_neg hd]
      exact ⟨hback, hcount''.trans hcount', hdirected'.trans hdirected,
        hversion'.trans hversion⟩

/-- The operations of a batch act one after the other. -/
theorem Refines.foldl_applyUnversioned (h : Refines g arcs) (updates : List EdgeUpdate) :
    Refines (updates.foldl DynamicGraph.applyUnversioned g)
        (applyAll g.directed arcs updates) ∧
      (updates.foldl DynamicGraph.applyUnversioned g).vertexCount =
        growAll g.vertexCount updates ∧
      (updates.foldl DynamicGraph.applyUnversioned g).directed = g.directed ∧
      (updates.foldl DynamicGraph.applyUnversioned g).version = g.version := by
  induction updates generalizing g arcs with
  | nil => exact ⟨h, rfl, rfl, rfl⟩
  | cons op rest ih =>
    obtain ⟨hop, hcount, hdirected, hversion⟩ := h.applyUnversioned op
    obtain ⟨hrest, hcount', hdirected', hversion'⟩ := ih hop
    rw [hdirected] at hrest
    rw [hcount] at hcount'
    exact ⟨hrest, hcount', hdirected'.trans hdirected, hversion'.trans hversion⟩

/-- Storage maintenance: both directions keep every effective row. -/
structure Maintained (g g' : DynamicGraph D) : Prop where
  outgoing : Side.Kept g.outgoing g'.outgoing
  incoming : Side.Kept g.incoming g'.incoming
  directed : g'.directed = g.directed
  version : g'.version = g.version

/-- Maintenance steps compose. -/
theorem Maintained.trans {g'' : DynamicGraph D} (h : Maintained g g') (h' : Maintained g' g'') :
    Maintained g g'' :=
  ⟨h.outgoing.trans h'.outgoing, h.incoming.trans h'.incoming, h'.directed.trans h.directed,
    h'.version.trans h.version⟩

/-- No maintenance at all. -/
theorem Maintained.refl (hout : g.outgoing.Tracked) (hin : g.incoming.Tracked) :
    Maintained g g :=
  ⟨Side.Kept.refl hout, Side.Kept.refl hin, rfl, rfl⟩

/-- Maintenance changes neither the vertices nor the represented arcs. -/
theorem Refines.maintained (h : Refines g arcs) (hkept : Maintained g g') :
    Refines g' arcs ∧ g'.vertexCount = g.vertexCount := by
  have hcount : g'.vertexCount = g.vertexCount :=
    congrArg SegmentedCsr.vertexCount hkept.outgoing.base
  refine ⟨⟨⟨hkept.outgoing.wellFormed h.outgoing, hkept.outgoing.tight h.tight,
    hkept.incoming.tracked, fun u v => ?_⟩, ?_⟩, hcount⟩
  · rw [hkept.outgoing.has h.outgoing, h.has]
  · rw [hkept.directed, hcount]
    exact h.simple

/-- `compact` empties both overlays. -/
theorem compact_spec (hout : g.outgoing.Tracked) (hin : g.incoming.Tracked) :
    Maintained g g.compact ∧ g.compact.isCompact = true := by
  unfold compact
  split
  · exact ⟨Maintained.refl hout hin, ‹_›⟩
  · obtain ⟨hkept, hnil⟩ := Side.compactMarkedRows_spec hout
    obtain ⟨hkept', hnil'⟩ := Side.compactMarkedRows_spec hin
    have hrepack := Side.kept_repack hkept.tracked
    have hrepack' := Side.kept_repack hkept'.tracked
    refine ⟨⟨hkept.trans hrepack, hkept'.trans hrepack', rfl, rfl⟩, ?_⟩
    rw [isCompact, Bool.and_eq_true]
    exact ⟨Side.empty_of_forall_nil hrepack.tracked fun u => (hrepack.rows_nil (hnil u)),
      Side.empty_of_forall_nil hrepack'.tracked fun u => (hrepack'.rows_nil (hnil' u))⟩

section Heuristics

variable [DoubleArith D]

/-- Compacting dense rows is maintenance, whatever the threshold. -/
theorem maybeCompact_spec (hout : g.outgoing.Tracked) (hin : g.incoming.Tracked)
    (threshold : D) : Maintained g (g.maybeCompact threshold).2 := by
  have hkept := Side.kept_compactDenseRows hout threshold
  have hkept' := Side.kept_compactDenseRows hin threshold
  unfold maybeCompact
  dsimp only
  split
  · exact ⟨hkept.trans (Side.kept_repackAbove hkept.tracked _),
      hkept'.trans (Side.kept_repackAbove hkept'.tracked _), rfl, rfl⟩
  · exact ⟨hkept, hkept', rfl, rfl⟩

/-- The maintenance after a batch is maintenance, whatever the ratios are. -/
theorem automaticStorageMaintenance_spec (hout : g.outgoing.Tracked)
    (hin : g.incoming.Tracked) : Maintained g g.automaticStorageMaintenance := by
  unfold automaticStorageMaintenance
  dsimp only
  have hfirst : Maintained g
      (if 65536 ≤ g.outgoing.delta.size && DoubleArith.le (0.01 : D) g.deltaRatio then
        (g.maybeCompact (0.50 : D)).2
      else g) := by
    split
    · exact maybeCompact_spec hout hin _
    · exact Maintained.refl hout hin
  exact hfirst.trans ⟨Side.kept_repackAbove hfirst.outgoing.tracked _,
    Side.kept_repackAbove hfirst.incoming.tracked _, rfl, rfl⟩

/-- A batch acts on the represented arcs as on the abstract graph, and counts as one version. -/
theorem Refines.apply (h : Refines g arcs) (batch : UpdateBatch) :
    Refines (g.apply batch) (applyAll g.directed arcs batch.updates) ∧
      (g.apply batch).vertexCount = growAll g.vertexCount batch.updates ∧
      (g.apply batch).directed = g.directed ∧
      (g.apply batch).version = if batch.empty then g.version else g.version + 1 := by
  obtain ⟨hfold, hcount, hdirected, hversion⟩ := h.foldl_applyUnversioned batch.updates
  unfold DynamicGraph.apply
  dsimp only
  split
  · exact ⟨hfold, hcount, hdirected, hversion⟩
  · generalize hg' : DynamicGraph.mk _ _ _ _ = g'
    have hfold' : Refines g' (applyAll g.directed arcs batch.updates) := by
      subst hg'
      exact ⟨⟨hfold.outgoing, hfold.tight, hfold.incoming, hfold.has⟩, hfold.simple⟩
    have hkept := automaticStorageMaintenance_spec hfold'.outgoing.toTracked hfold'.incoming
    obtain ⟨hrefines, hcount'⟩ := hfold'.maintained hkept
    refine ⟨hrefines, hcount'.trans ?_, hkept.directed.trans ?_, hkept.version.trans ?_⟩
    · subst hg'
      exact hcount
    · subst hg'
      exact hdirected
    · subst hg'
      rw [hversion]

end Heuristics

/-- The largest id of a simple edge makes the same vertices as inserting the edges. -/
theorem growAll_insertions (n : ℕ) (edges : List (VertexId × VertexId)) :
    growAll n (insertions edges) =
      match maxVertex edges with
      | some v => max n (v.val + 1)
      | none => n := by
  have hfold : ∀ best : Option VertexId,
      growAll (match best with
        | some v => max n (v.val + 1)
        | none => n) (insertions edges) =
      match edges.foldl (fun best e =>
          if e.1 = e.2 then best else some (max (best.getD 0) (max e.1 e.2))) best with
      | some v => max n (v.val + 1)
      | none => n := by
    induction edges with
    | nil => exact fun best => rfl
    | cons e rest ih =>
      intro best
      rw [List.foldl_cons, ← ih]
      simp only [insertions, List.map_cons, growAll, List.foldl_cons, growBy]
      by_cases hloop : e.1 = e.2
      · rw [if_pos hloop, if_pos hloop]
      · rw [if_neg hloop, if_neg hloop]
        congr 1
        cases best with
        | none =>
          simp only [Option.getD_none, val_max]
          simp
        | some v =>
          simp only [Option.getD_some, val_max]
          omega
  exact hfold none

/-- The arcs of a bulk load are the arcs of its edge list. -/
theorem mem_loadArcs (directed : Bool) (edges : List (VertexId × VertexId)) (u v : VertexId) :
    (u, v) ∈ loadArcs directed edges ↔ (u, v) ∈ ofEdges directed edges := by
  simp only [loadArcs, List.mem_flatMap, ofEdges, Set.mem_ofPred_eq]
  constructor
  · rintro ⟨e, he, hmem⟩
    split at hmem
    · exact absurd hmem List.not_mem_nil
    · rename_i hloop
      split at hmem
      · obtain rfl := List.mem_singleton.mp hmem
        exact ⟨hloop, Or.inl he⟩
      · rename_i hdirected
        rcases List.mem_cons.mp hmem with rfl | hmem
        · exact ⟨hloop, Or.inl he⟩
        · obtain ⟨rfl, rfl⟩ := Prod.mk.inj (List.mem_singleton.mp hmem)
          exact ⟨Ne.symm hloop, Or.inr ⟨by simpa using hdirected, he⟩⟩
  · rintro ⟨hne, he | ⟨hdirected, he⟩⟩
    · refine ⟨(u, v), he, ?_⟩
      rw [if_neg hne]
      split <;> exact List.mem_cons_self
    · refine ⟨(v, u), he, ?_⟩
      rw [if_neg (Ne.symm hne), if_neg (by simp [hdirected])]
      exact List.mem_cons_of_mem _ (List.mem_singleton_self _)

/-- The base built by a bulk load holds exactly the arcs of the edge list. -/
theorem holds_loadArcs (n : ℕ) (directed : Bool) (edges : List (VertexId × VertexId)) :
    SegmentedCsr.Holds
      (SegmentedCsr.build (growAll n (insertions edges)) (loadArcs directed edges))
      (growAll n (insertions edges)) fun u v => (u, v) ∈ ofEdges directed edges := by
  have hsimple := simple_ofEdges directed n edges
  refine (SegmentedCsr.build_spec _ _).congr fun u v => ?_
  rw [mem_loadArcs]
  exact ⟨And.left, fun hmem => ⟨hmem, fun heq => hsimple.loopless u (heq ▸ hmem),
    (hsimple.within u v hmem).1, (hsimple.within u v hmem).2⟩⟩

/-- A bulk load, with the vertices it needs in the place of the growth step. -/
theorem bulkLoadEdges_eq (h : Represents g arcs) (edges : List (VertexId × VertexId)) :
    ∃ g₁ : DynamicGraph D, g₁.directed = g.directed ∧ g₁.version = g.version ∧
      g.bulkLoadEdges edges =
        let n := growAll g.vertexCount (insertions edges)
        let baseOut := SegmentedCsr.build n (loadArcs g.directed edges)
        { g₁ with
          outgoing := loadSide g₁.outgoing baseOut n
          incoming := loadSide g₁.incoming (SegmentedCsr.buildTransposeFrom baseOut) n
          version := g.version + 1 } := by
  have hgrow := growAll_insertions g.vertexCount edges
  have hbase := (holds_loadArcs g.vertexCount g.directed edges).vertexCount
  unfold DynamicGraph.bulkLoadEdges
  dsimp only
  cases hmax : maxVertex edges with
  | some v =>
    rw [hmax] at hgrow
    refine ⟨g.ensureVertex v, directed_ensureVertex g v, version_ensureVertex g v, ?_⟩
    dsimp only at hgrow ⊢
    rw [(h.ensureVertex v).2, directed_ensureVertex, version_ensureVertex, ← hgrow, hbase]
  | none =>
    rw [hmax] at hgrow
    refine ⟨g, rfl, rfl, ?_⟩
    dsimp only at hgrow ⊢
    rw [hgrow] at hbase ⊢
    rw [hbase]

/-- A bulk load replaces the represented arcs by those of the edge list. -/
theorem Refines.bulkLoadEdges (h : Refines g arcs) (edges : List (VertexId × VertexId)) :
    Refines (g.bulkLoadEdges edges) (ofEdges g.directed edges) ∧
      (g.bulkLoadEdges edges).vertexCount = growAll g.vertexCount (insertions edges) ∧
      (g.bulkLoadEdges edges).directed = g.directed := by
  obtain ⟨g₁, hdirected, -, heq⟩ := bulkLoadEdges_eq h.toRepresents edges
  have hholds := holds_loadArcs g.vertexCount g.directed edges
  obtain ⟨hwf, htight, hhas⟩ := Side.wellFormed_loadSide g₁.outgoing hholds
    (growAll g.vertexCount (insertions edges))
  have hcount : (g.bulkLoadEdges edges).vertexCount = growAll g.vertexCount (insertions edges) := by
    rw [heq]
    exact hholds.vertexCount
  have hdirected' : (g.bulkLoadEdges edges).directed = g.directed := by
    rw [heq]
    exact hdirected
  refine ⟨⟨?_, ?_⟩, hcount, hdirected'⟩
  · rw [heq]
    refine ⟨hwf, htight, (Side.tracked_loadSide _ _ _).1, fun u v => ?_⟩
    rw [Bool.eq_iff_iff, present_eq_true]
    exact hhas u v
  · rw [hcount, hdirected']
    exact simple_ofEdges _ _ _

/-- The constructor represents the graph without arcs. -/
theorem refines_create (vertices : ℕ) (directed : Bool) :
    Refines (create vertices directed : DynamicGraph D) ∅ ∧
      (create vertices directed : DynamicGraph D).vertexCount = vertices := by
  obtain ⟨hwf, htight, hhas⟩ := Side.wellFormed_create vertices
  refine ⟨⟨⟨hwf, htight, hwf.toTracked, fun u v => ?_⟩, simple_empty _ _⟩, ?_⟩
  · refine (hhas u v).trans (Bool.eq_false_iff.mpr fun hpresent => ?_).symm
    exact Set.notMem_empty _ (present_eq_true.mp hpresent)
  · exact (SegmentedCsr.shape_empty.resizeVertices vertices).2.trans (Nat.zero_max _)

end DynamicGraph

end VeloGraphX
