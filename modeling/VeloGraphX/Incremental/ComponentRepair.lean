import Mathlib
import VeloGraphX.Incremental.UnionFindSpec

/-!
# Repair of the components after a batch

The deletions of a batch that take an edge away name components by their roots; together these
components are the region that is reset. Uniting the region along its remaining edges, and then
the endpoints of the inserted edges, leaves the components of the graph after the batch: an arc
that disappears has both ends in the region, and an arc that appears is an insertion of the
reduced batch.
-/

namespace VeloGraphX

open FuelLoop PointUpdate LastWrite DisjointSets ArcSet GraphAccess UnionFind

/-- The vertices whose root is one of the given ones. -/
def region (parent : VertexId → VertexId) (roots : List VertexId) : Set VertexId :=
  {v | ∃ r ∈ roots, RootOf parent v r}

/-- `affected`: which vertices are in the region. -/
structure Marks (R : Set VertexId) (n : ℕ) (affected : List ℕ) : Prop where
  length_eq : affected.length = n
  marked : ∀ v : VertexId, v.val < n → (affected.getD v 0 ≠ 0 ↔ v ∈ R)
  within : ∀ v ∈ R, v.val < n

/-- New vertices are not in the region. -/
theorem Marks.resize {R : Set VertexId} {n m : ℕ} {affected : List ℕ} (h : Marks R n affected)
    (hle : n ≤ m) : Marks R m (resize affected m 0) := by
  refine ⟨length_resize _ _ _, fun v _ => ?_, fun v hv => (h.within v hv).trans_le hle⟩
  rw [getD_resize (h.length_eq.le.trans hle), h.length_eq]
  by_cases hvn : v.val < n
  · rw [if_pos hvn]
    exact h.marked v hvn
  · rw [if_neg hvn, ite_self]
    exact iff_of_false (fun hne => hne rfl) fun hv => hvn (h.within v hv)

/-- Compressing paths does not change which parents are in the region. -/
theorem mem_region_iff_parent {parent parent' : VertexId → VertexId} (hforest : Forest parent)
    (hkept : Kept parent parent') (roots : List VertexId) (v : VertexId) :
    v ∈ region parent roots ↔ parent' v ∈ region parent roots := by
  obtain ⟨r, hr⟩ := hforest v
  obtain ⟨s, hs⟩ := hforest (parent' v)
  have hsame : r = s := by
    have hup := hkept _ _ hs
    cases hkept v r hr with
    | root hself =>
      rw [hself] at hup
      exact (RootOf.root hself).unique hup
    | step _ hrest => exact hrest.unique hup
  constructor
  · rintro ⟨r', hr', hroot⟩
    exact ⟨r', hr', (hr.unique hroot) ▸ hsame ▸ hs⟩
  · rintro ⟨r', hr', hroot⟩
    exact ⟨r', hr', (hs.unique hroot) ▸ hsame ▸ hr⟩

/-- The key of an operation says which edge it writes. -/
theorem locates_componentEntry (u v : VertexId) :
    Locates componentEntry (writeOn false u v) (edgeKey u v false) := by
  have hnone : ∀ op : EdgeUpdate, op.src = op.dst → writeOn false u v op = none :=
    fun op hloop => if_neg fun hand => hand.1 hloop
  have hsome : ∀ op : EdgeUpdate, op.src ≠ op.dst →
      ((writeOn false u v op).isSome ↔ edgeKey op.src op.dst false = edgeKey u v false) := by
    intro op hloop
    rw [edgeKey_eq_iff, Option.isSome_iff_exists]
    refine ⟨fun ⟨b, hb⟩ => ?_, fun haddressed => ?_⟩
    · exact (writeOn_undirected.mp hb).2.2.imp id fun hback => ⟨rfl, hback⟩
    · exact ⟨op.add, writeOn_undirected.mpr ⟨rfl, hloop, haddressed.imp id And.right⟩⟩
  have hswap : ∀ op : EdgeUpdate,
      writeOn false u v { op with src := op.dst, dst := op.src } = writeOn false u v op ∧
        edgeKey op.dst op.src false = edgeKey op.src op.dst false := by
    intro op
    refine ⟨?_, edgeKey_eq_iff.mpr (Or.inr ⟨rfl, rfl, rfl⟩)⟩
    unfold writeOn
    refine if_congr ?_ rfl rfl
    tauto
  refine ⟨fun op hop => ?_, fun op k kept hop => ?_, fun op k kept hop => ?_⟩ <;>
    unfold componentEntry at hop <;> split at hop <;> rename_i hloop
  · exact hnone op hloop
  · exact absurd hop (by simp)
  · exact absurd hop (by simp)
  · obtain ⟨-, rfl⟩ := Prod.mk.inj (Option.some.inj hop)
    split
    · exact (hswap op).1
    · rfl
  · exact absurd hop (by simp)
  · obtain ⟨rfl, -⟩ := Prod.mk.inj (Option.some.inj hop)
    rw [hsome op hloop]
    split
    · rw [(hswap op).2]
    · rfl

/-- An arc that a batch inserts or deletes is named by the reduced batch. -/
theorem exists_canonical_undirected {batch : UpdateBatch} {arcs : ArcSet} {u v : VertexId}
    (hne : present (applyAll false arcs batch.updates) u v ≠ present arcs u v) :
    ∃ op ∈ (canonicalizeUndirected batch).updates,
      op.add = present (applyAll false arcs batch.updates) u v ∧
        (op.src = u ∧ op.dst = v ∨ op.dst = u ∧ op.src = v) := by
  have hlocates := locates_componentEntry u v
  obtain ⟨kept, hkept, hsome⟩ := hlocates.exists_kept (exists_writeOn hne)
  rw [present_applyAll]
  obtain ⟨b, hb⟩ := Option.isSome_iff_exists.mp hsome
  obtain ⟨rfl, -, haddressed⟩ := writeOn_undirected.mp hb
  exact ⟨kept, hkept, (hlocates.lastWrite_eq hkept hb _).symm, haddressed⟩

namespace IncrementalComponents

variable {G : Type} [GraphAccess G] {g : G} {n : ℕ} {sets : UnionFind}
  {parent : VertexId → VertexId}

/-- An operation that takes an existing edge away. -/
def Removes (g : G) (n : ℕ) (op : EdgeUpdate) : Prop :=
  op.add = false ∧ op.src.val < n ∧ op.dst.val < n ∧ hasEdge g op.src op.dst = true

/-- One turn of the loop that collects the roots of the region. -/
theorem collectRoots_step (hforest : Forest parent) {state : List VertexId × UnionFind}
    (h : UnionFind.Sized n state.2) (hkept : Kept parent state.2.parentOf) (op : EdgeUpdate) :
    Returns (fun fuel => collectRoots g fuel state op) fun state' =>
      UnionFind.Sized n state'.2 ∧ Kept parent state'.2.parentOf ∧ ∀ r, r ∈ state'.1 ↔
        r ∈ state.1 ∨ Removes g n op ∧ (RootOf parent op.src r ∨ RootOf parent op.dst r) := by
  obtain ⟨roots, sets⟩ := state
  dsimp only at h hkept ⊢
  unfold collectRoots
  simp only [h.parent_length]
  by_cases hop : Removes g n op
  · have hcond : (!op.add && decide (op.src.val < n) && decide (op.dst.val < n) &&
        hasEdge g op.src op.dst) = true := by simpa [Removes, and_assoc] using hop
    simp only [if_pos hcond]
    obtain ⟨a, ha⟩ := hforest op.src
    obtain ⟨b, hb⟩ := hforest op.dst
    refine (find_spec h hop.2.1 (hkept _ _ ha)).bind fun first hfirst => ?_
    obtain ⟨root, found⟩ := first
    obtain ⟨rfl, hsized, hkept'⟩ := hfirst
    have hall := hkept.trans hkept'
    refine Returns.map ((find_spec hsized hop.2.2.1 (hall _ _ hb)).mono fun second hsecond => ?_)
    obtain ⟨root', found'⟩ := second
    obtain ⟨rfl, hsized', hkept''⟩ := hsecond
    refine ⟨hsized', hall.trans hkept'', fun r => ?_⟩
    have hsrc : RootOf parent op.src r ↔ r = root :=
      ⟨fun hr => hr.unique ha, fun heq => heq ▸ ha⟩
    have hdst : RootOf parent op.dst r ↔ r = root' :=
      ⟨fun hr => hr.unique hb, fun heq => heq ▸ hb⟩
    rw [hsrc, hdst, List.mem_insert_iff, List.mem_insert_iff]
    tauto
  · have hcond : ¬ (!op.add && decide (op.src.val < n) && decide (op.dst.val < n) &&
        hasEdge g op.src op.dst) = true := by simpa [Removes, and_assoc] using hop
    simp only [if_neg hcond]
    exact Returns.pure ⟨h, hkept, fun r => (or_iff_left fun hor => hop hor.1).symm⟩

/-- The collected roots are those of the endpoints of the edges that are taken away. -/
theorem collectRoots_spec (hforest : Forest sets.parentOf) (h : UnionFind.Sized n sets)
    (ops : List EdgeUpdate) :
    Returns (fun fuel => foldRun (collectRoots g fuel) ops ([], sets)) fun state =>
      UnionFind.Sized n state.2 ∧ Kept sets.parentOf state.2.parentOf ∧ ∀ r, r ∈ state.1 ↔
        ∃ op ∈ ops, Removes g n op ∧
          (RootOf sets.parentOf op.src r ∨ RootOf sets.parentOf op.dst r) := by
  refine (returns_foldRun (fun rest (state : List VertexId × UnionFind) => UnionFind.Sized n state.2 ∧
    Kept sets.parentOf state.2.parentOf ∧ ∀ r, (r ∈ state.1 ∨ ∃ op ∈ rest, Removes g n op ∧
      (RootOf sets.parentOf op.src r ∨ RootOf sets.parentOf op.dst r)) ↔
      ∃ op ∈ ops, Removes g n op ∧
        (RootOf sets.parentOf op.src r ∨ RootOf sets.parentOf op.dst r))
    (fun op rest state hstate => ?_) ops ([], sets) ?_).mono fun state hstate => ?_
  · obtain ⟨hsized, hkept, hroots⟩ := hstate
    refine (collectRoots_step hforest hsized hkept op).mono fun state' hstate' => ?_
    refine ⟨hstate'.1, hstate'.2.1, fun r => ?_⟩
    rw [hstate'.2.2, ← hroots, List.exists_mem_cons_iff, or_assoc]
  · exact ⟨h, Kept.refl _, fun r => or_iff_right List.not_mem_nil⟩
  · refine ⟨hstate.1, hstate.2.1, fun r => ?_⟩
    rw [← hstate.2.2 r]
    exact (or_iff_left fun ⟨op, hop, _⟩ => List.not_mem_nil hop).symm

/-- The marked vertices are those of the region. -/
theorem markAffected_spec (hforest : Forest parent) (h : UnionFind.Sized n sets) (hn : n < 2 ^ 32)
    (hkept : Kept parent sets.parentOf) (roots : List VertexId)
    (hwithin : ∀ v ∈ region parent roots, v.val < n) :
    Returns (fun fuel => countLoop n (markAffected roots) fuel 0
      { affected := List.replicate n 0, sets := sets }) fun marking =>
        UnionFind.Sized n marking.sets ∧ Kept parent marking.sets.parentOf ∧
          Marks (region parent roots) n marking.affected := by
  refine (returns_countLoop hn (fun i (marking : Marking) => UnionFind.Sized n marking.sets ∧
    Kept parent marking.sets.parentOf ∧ marking.affected.length = n ∧
    ∀ v : VertexId, v.val < n →
      (marking.affected.getD v 0 ≠ 0 ↔ v.val < i ∧ v ∈ region parent roots))
    (fun u marking hu hinv => ?_) (Nat.zero_le n) ?_).mono fun marking hmarking => ?_
  · obtain ⟨hsized, hkept', hlength, hmarked⟩ := hinv
    obtain ⟨r, hr⟩ := hforest u
    refine Returns.map ((find_spec hsized hu (hkept' _ _ hr)).mono fun found hfound => ?_)
    obtain ⟨root, sets'⟩ := found
    obtain ⟨rfl, hsized', hkept''⟩ := hfound
    have hmem : u ∈ region parent roots ↔ root ∈ roots := by
      refine ⟨fun ⟨r, hroots, hroot⟩ => ?_, fun hroots => ⟨root, hroots, hr⟩⟩
      rwa [hroot.unique hr] at hroots
    dsimp only
    by_cases hroots : root ∈ roots
    · rw [if_pos hroots]
      refine ⟨hsized', hkept'.trans hkept'', (List.length_set).trans hlength, fun v hv => ?_⟩
      rw [getD_set (hlength.symm ▸ hu), lt_next_iff]
      by_cases hvu : v = u
      · rw [if_pos (congrArg Fin.val hvu), hvu]
        exact iff_of_true one_ne_zero ⟨Or.inr rfl, hmem.mpr hroots⟩
      · rw [if_neg fun heq => hvu (Fin.ext heq), hmarked v hv, or_iff_left hvu]
    · rw [if_neg hroots]
      refine ⟨hsized', hkept'.trans hkept'', hlength, fun v hv => ?_⟩
      rw [hmarked v hv, lt_next_iff]
      by_cases hvu : v = u
      · rw [hvu]
        exact iff_of_false (fun hlt => absurd hlt.1 (lt_irrefl _))
          fun hin => hroots (hmem.mp hin.2)
      · rw [or_iff_left hvu]
  · refine ⟨h, hkept, List.length_replicate, fun v hv => ?_⟩
    rw [List.getD_replicate _ hv]
    exact iff_of_false (fun hne => hne rfl) fun hlt => absurd hlt.1 (Nat.not_lt_zero _)
  · obtain ⟨hsized, hkept', hlength, hmarked⟩ := hmarking
    exact ⟨hsized, hkept', hlength, fun v hv => (hmarked v hv).trans (and_iff_right hv), hwithin⟩

/-- Resetting splits the region into single vertices. -/
theorem resetAll_spec {R : Set VertexId} [DecidablePred (· ∈ R)] {affected : List ℕ}
    (h : UnionFind.Sized n sets) (hn : n < 2 ^ 32) (hmarks : Marks R n affected) :
    Returns (fun fuel => countLoop n (fun _ v sets => some (resetVertex affected v sets)) fuel 0
      sets) fun sets' =>
        UnionFind.Sized n sets' ∧ (sets'.parentOf = fun v => if v ∈ R then v else sets.parentOf v) ∧
          sets'.rankOf = fun v => if v ∈ R then 0 else sets.rankOf v := by
  refine (returns_countLoop hn (fun i (sets' : UnionFind) => UnionFind.Sized n sets' ∧
    (∀ v, sets'.parentOf v = if v.val < i ∧ v ∈ R then v else sets.parentOf v) ∧
    ∀ v, sets'.rankOf v = if v.val < i ∧ v ∈ R then 0 else sets.rankOf v)
    (fun u sets' hu hinv => ?_) (Nat.zero_le n) ?_).mono fun sets' hsets' => ?_
  · obtain ⟨hsized, hparent, hrank⟩ := hinv
    refine Returns.pure ?_
    unfold resetVertex
    by_cases hR : u ∈ R
    · rw [if_pos ((hmarks.marked u hu).mpr hR)]
      refine ⟨hsized.set hu hu ((List.length_set).trans hsized.rank_length), fun v => ?_,
        fun v => ?_⟩
      · rw [parentOf_set hsized hu]
        by_cases hvu : v = u
        · rw [hvu, Function.update_self, if_pos ⟨Nat.lt_succ_self _, hR⟩]
        · rw [Function.update_of_ne hvu, hparent]
          simp only [lt_next_iff, or_iff_left hvu]
      · rw [rankOf_set hsized hu]
        by_cases hvu : v = u
        · rw [hvu, Function.update_self, if_pos ⟨Nat.lt_succ_self _, hR⟩]
        · rw [Function.update_of_ne hvu, hrank]
          simp only [lt_next_iff, or_iff_left hvu]
    · rw [if_neg fun hne => hR ((hmarks.marked u hu).mp hne)]
      have hsame : ∀ v : VertexId, v.val < u.val + 1 ∧ v ∈ R ↔ v.val < u.val ∧ v ∈ R := fun v => by
        rw [lt_next_iff]
        exact ⟨fun hin => ⟨hin.1.resolve_right fun heq => hR (heq ▸ hin.2), hin.2⟩,
          fun hin => ⟨Or.inl hin.1, hin.2⟩⟩
      simp only [hsame]
      exact ⟨hsized, hparent, hrank⟩
  · have hnone : ∀ v : VertexId, ¬ (v.val < (0 : VertexId).val ∧ v ∈ R) := fun v hin =>
      absurd hin.1 (Nat.not_lt_zero _)
    exact ⟨h, fun v => (if_neg (hnone v)).symm, fun v => (if_neg (hnone v)).symm⟩
  · obtain ⟨hsized, hparent, hrank⟩ := hsets'
    have hall : ∀ v : VertexId, v.val < n ∧ v ∈ R ↔ v ∈ R := fun v =>
      and_iff_right_of_imp (hmarks.within v)
    simp only [hall] at hparent hrank
    exact ⟨hsized, funext hparent, funext hrank⟩

variable {arcs : ArcSet} {E : VertexId → VertexId → Prop}

/-- The unions along the edges of one vertex. -/
theorem uniteNeighbors_spec (hserves : Serves g arcs) (hcount : vertexCount g = n)
    (h : UnionFind.Sized n sets) (hE : Represents sets.parentOf E) (keep : VertexId → Bool) (u : VertexId) :
    Returns (fun fuel => uniteNeighbors fuel g keep u sets) fun sets' =>
      UnionFind.Sized n sets' ∧ Represents sets'.parentOf fun p q =>
        E p q ∨ p = u ∧ keep q = true ∧ (p, q) ∈ arcs := by
  have harc := hserves.mem_neighbor u
  have hfold := uniteAll_spec hcount.le
    (fun fuel sets v => if keep v then sets.unite fuel (vertexCount g) u v else some sets)
    (fun v => keep v = true) (fun v => (u, v)) (forEachNeighbor g u)
    (fun v _ sets _ fuel => rfl) (fun v hv _ => ?_) h hE
  · refine hfold.mono fun sets' hsets' => ⟨hsets'.1, hsets'.2.congr (fun p q hpq => .rel _ _ ?_)
      fun p q hpq => .rel _ _ ?_⟩
    · rcases hpq with hpq | ⟨v, hv, hkeep, heq⟩
      · exact Or.inl hpq
      · obtain ⟨rfl, rfl⟩ := Prod.mk.inj heq
        exact Or.inr ⟨rfl, hkeep, (harc v).mp hv⟩
    · rcases hpq with hpq | ⟨rfl, hkeep, hmem⟩
      · exact Or.inl hpq
      · exact Or.inr ⟨q, (harc q).mpr hmem, hkeep, rfl⟩
  · have hlt := hserves.simple.within u v ((harc v).mp hv)
    rw [hcount] at hlt
    exact hlt

/-- The loop over all vertices unites along the arcs that `keep` allows at both ends. -/
theorem uniteArcs_spec (hserves : Serves g arcs) (hcount : vertexCount g = n) (hn : n < 2 ^ 32)
    (h : UnionFind.Sized n sets) (hE : Represents sets.parentOf E) {R : Set VertexId}
    (body : ℕ → VertexId → UnionFind → Option UnionFind) (keep : VertexId → Bool)
    (hkeep : ∀ v : VertexId, v.val < n → (keep v = true ↔ v ∈ R))
    (hbody : ∀ fuel (u : VertexId) sets, u.val < n → body fuel u sets =
      if keep u then uniteNeighbors fuel g keep u sets else some sets) :
    Returns (fun fuel => countLoop n body fuel 0 sets) fun sets' =>
      UnionFind.Sized n sets' ∧ Represents sets'.parentOf fun p q =>
        E p q ∨ p ∈ R ∧ q ∈ R ∧ (p, q) ∈ arcs := by
  have hlt : ∀ p q, (p, q) ∈ arcs → p.val < n ∧ q.val < n := fun p q hpq =>
    hcount ▸ hserves.simple.within p q hpq
  refine (returns_countLoop hn (fun i (sets' : UnionFind) => UnionFind.Sized n sets' ∧
    Represents sets'.parentOf fun p q => E p q ∨ p.val < i ∧ p ∈ R ∧ q ∈ R ∧ (p, q) ∈ arcs)
    (fun u sets' hu hinv => ?_) (Nat.zero_le n) ?_).mono fun sets' hsets' => ?_
  · obtain ⟨hsized, hrep⟩ := hinv
    simp only [hbody _ u sets' hu]
    by_cases hR : u ∈ R
    · simp only [if_pos ((hkeep u hu).mpr hR)]
      refine (uniteNeighbors_spec hserves hcount hsized hrep keep u).mono fun sets'' hsets'' =>
        ⟨hsets''.1, hsets''.2.congr (fun p q hpq => .rel _ _ ?_) fun p q hpq => .rel _ _ ?_⟩
      · rcases hpq with (hpq | ⟨hlt, hpq⟩) | ⟨rfl, hq, hmem⟩
        · exact Or.inl hpq
        · exact Or.inr ⟨Nat.lt_succ_of_lt hlt, hpq⟩
        · exact Or.inr ⟨Nat.lt_succ_self _, hR, (hkeep q (hlt _ _ hmem).2).mp hq, hmem⟩
      · rcases hpq with hpq | ⟨hle, hp, hq, hmem⟩
        · exact Or.inl (Or.inl hpq)
        · rcases lt_next_iff.mp hle with hlt' | rfl
          · exact Or.inl (Or.inr ⟨hlt', hp, hq, hmem⟩)
          · exact Or.inr ⟨rfl, (hkeep q (hlt _ _ hmem).2).mpr hq, hmem⟩
    · simp only [if_neg fun hkept => hR ((hkeep u hu).mp hkept)]
      refine Returns.pure ⟨hsized, hrep.congr (fun p q hpq => .rel _ _ ?_) fun p q hpq =>
        .rel _ _ ?_⟩
      · exact hpq.imp id fun hin => ⟨Nat.lt_succ_of_lt hin.1, hin.2⟩
      · refine hpq.imp id fun hin => ⟨?_, hin.2⟩
        exact (lt_next_iff.mp hin.1).resolve_right fun heq => hR (heq ▸ hin.2.1)
  · refine ⟨h, hE.congr (fun p q hpq => .rel _ _ (Or.inl hpq)) fun p q hpq => .rel _ _ ?_⟩
    exact hpq.resolve_right fun hin => absurd hin.1 (Nat.not_lt_zero _)
  · refine ⟨hsets'.1, hsets'.2.congr (fun p q hpq => .rel _ _ ?_) fun p q hpq => .rel _ _ ?_⟩
    · exact hpq.imp id fun hin => hin.2
    · exact hpq.imp id fun hin => ⟨(hlt p q hin.2.2).1, hin⟩

/-- The last loop unites the ends of the inserted edges. -/
theorem uniteAdditions_spec (hserves : Serves g arcs) (hcount : vertexCount g = n)
    (h : UnionFind.Sized n sets) (hE : Represents sets.parentOf E) (ops : List EdgeUpdate) :
    Returns (fun fuel => foldRun (uniteAddition g fuel) ops sets) fun sets' =>
      UnionFind.Sized n sets' ∧ Represents sets'.parentOf fun p q =>
        E p q ∨ (p, q) ∈ arcs ∧ ∃ op ∈ ops, op.add = true ∧ op.src = p ∧ op.dst = q := by
  have hwithin : ∀ p q, (p, q) ∈ arcs → p.val < n ∧ q.val < n := fun p q hpq =>
    hcount ▸ hserves.simple.within p q hpq
  have hcond : ∀ op : EdgeUpdate, (op.add && decide (op.src.val < n) && decide (op.dst.val < n) &&
      hasEdge g op.src op.dst) = true ↔ op.add = true ∧ (op.src, op.dst) ∈ arcs := by
    intro op
    simp only [Bool.and_eq_true, decide_eq_true_eq, hserves.hasEdge, present_eq_true]
    exact ⟨fun hand => ⟨hand.1.1.1, hand.2⟩,
      fun hand => ⟨⟨⟨hand.1, (hwithin _ _ hand.2).1⟩, (hwithin _ _ hand.2).2⟩, hand.2⟩⟩
  have hfold := uniteAll_spec hcount.le (uniteAddition g)
    (fun op : EdgeUpdate => (op.add && decide (op.src.val < n) && decide (op.dst.val < n) &&
      hasEdge g op.src op.dst) = true) (fun op => (op.src, op.dst)) ops
    (fun op _ sets hsets fuel => ?_)
    (fun op _ hop => hwithin _ _ ((hcond op).mp hop).2) h hE
  · refine hfold.mono fun sets' hsets' => ⟨hsets'.1, hsets'.2.congr (fun p q hpq => .rel _ _ ?_)
      fun p q hpq => .rel _ _ ?_⟩
    · rcases hpq with hpq | ⟨op, hop, hand, heq⟩
      · exact Or.inl hpq
      · obtain ⟨rfl, rfl⟩ := Prod.mk.inj heq
        obtain ⟨hadd, hmem⟩ := (hcond op).mp hand
        exact Or.inr ⟨hmem, op, hop, hadd, rfl, rfl⟩
    · rcases hpq with hpq | ⟨hmem, op, hop, hadd, rfl, rfl⟩
      · exact Or.inl hpq
      · exact Or.inr ⟨op, hop, (hcond op).mpr ⟨hadd, hmem⟩, rfl⟩
  · rw [uniteAddition, hsets.parent_length]

/-- What the reset, the unions inside the region and the unions of the insertions leave are the
components after the batch. -/
theorem represents_repaired {batch : UpdateBatch} {R : Set VertexId}
    (hclosed : ∀ p q, (p, q) ∈ arcs → (p ∈ R ↔ q ∈ R))
    (hremoved : ∀ p q, (p, q) ∈ arcs → (p, q) ∉ applyAll false arcs batch.updates → p ∈ R)
    (h : Represents parent fun p q =>
      ((Relation.EqvGen (fun p q => (p, q) ∈ arcs) p q ∧ p ∉ R ∧ q ∉ R) ∨
        p ∈ R ∧ q ∈ R ∧ (p, q) ∈ applyAll false arcs batch.updates) ∨
      (p, q) ∈ applyAll false arcs batch.updates ∧
        ∃ op ∈ (canonicalizeUndirected batch).updates, op.add = true ∧ op.src = p ∧ op.dst = q)
    (hundirected : Undirected arcs) :
    Represents parent fun p q => (p, q) ∈ applyAll false arcs batch.updates := by
  have hback := hundirected.applyAll batch.updates
  refine h.congr (fun p q hpq => ?_) fun p q hpq => ?_
  · rcases hpq with (⟨hpq, hp, -⟩ | ⟨-, -, hpq⟩) | ⟨hpq, -⟩
    · -- outside the region every old arc is still there, and no old path enters the region
      have hequiv : Equivalence fun p q : VertexId => (p ∈ R ↔ q ∈ R) ∧ (p ∉ R →
          Relation.EqvGen (fun p q => (p, q) ∈ applyAll false arcs batch.updates) p q) := by
        refine ⟨fun p => ⟨Iff.rfl, fun _ => .refl p⟩, fun ⟨hiff, hpath⟩ => ?_,
          fun ⟨hiff, hpath⟩ ⟨hiff', hpath'⟩ => ?_⟩
        · exact ⟨hiff.symm, fun hq => (hpath fun hp => hq (hiff.mp hp)).symm⟩
        · exact ⟨hiff.trans hiff', fun hp =>
            (hpath hp).trans _ _ _ (hpath' fun hq => hp (hiff.mpr hq))⟩
      refine (eqvGen_le hequiv (fun p q hpq => ?_) hpq).2 hp
      refine ⟨hclosed p q hpq, fun hp => .rel _ _ ?_⟩
      by_contra hgone
      exact hp (hremoved p q hpq hgone)
    · exact .rel _ _ hpq
    · exact .rel _ _ hpq
  · by_cases hold : (p, q) ∈ arcs
    · by_cases hp : p ∈ R
      · exact .rel _ _ (Or.inl (Or.inr ⟨hp, (hclosed p q hold).mp hp, hpq⟩))
      · exact .rel _ _ (Or.inl (Or.inl ⟨.rel _ _ hold, hp,
          fun hq => hp ((hclosed p q hold).mpr hq)⟩))
    · have hchanged : present (applyAll false arcs batch.updates) p q ≠ present arcs p q := by
        rw [present_eq_true.mpr hpq]
        exact fun heq => hold (present_eq_true.mp heq.symm)
      obtain ⟨op, hop, hadd, haddressed⟩ := exists_canonical_undirected hchanged
      rw [present_eq_true.mpr hpq] at hadd
      rcases haddressed with ⟨hsrc, hdst⟩ | ⟨hdst, hsrc⟩
      · exact .rel _ _ (Or.inr ⟨hpq, op, hop, hadd, hsrc, hdst⟩)
      · exact (Relation.EqvGen.rel q p (Or.inr ⟨hback p q hpq, op, hop, hadd, hsrc, hdst⟩)).symm

/-- An engine whose sets are the components of the arcs its graph answers from. -/
structure Correct (engine : IncrementalComponents G) (arcs : ArcSet) : Prop where
  serves : Serves engine.graph arcs
  undirected : isDirected engine.graph = false
  count_lt : vertexCount engine.graph < 2 ^ 32
  sized : UnionFind.Sized (vertexCount engine.graph) engine.sets
  represents : Represents engine.sets.parentOf fun p q => (p, q) ∈ arcs

variable {engine : IncrementalComponents G}

/-- An edge lies inside a region of whole components or outside of it. -/
theorem mem_region_iff_of_arc (h : Represents parent fun p q => (p, q) ∈ arcs)
    (roots : List VertexId) {p q : VertexId} (hpq : (p, q) ∈ arcs) :
    p ∈ region parent roots ↔ q ∈ region parent roots := by
  obtain ⟨r, hp, hq⟩ := (h.same p q).mpr (.rel _ _ hpq)
  exact ⟨fun ⟨s, hs, hroot⟩ => ⟨s, hs, (hp.unique hroot) ▸ hq⟩,
    fun ⟨s, hs, hroot⟩ => ⟨s, hs, (hq.unique hroot) ▸ hp⟩⟩

/-- Resetting the region and uniting it along the edges that remain: outside of it the sets are the
old components, inside they are the new ones. -/
theorem rebuildRegion_spec {arcs' : ArcSet} {affected : List ℕ} {roots : List VertexId} {m : ℕ}
    (hserves : Serves g arcs') (hcount : vertexCount g = m) (hm : m < 2 ^ 32)
    (hE : Represents parent fun p q => (p, q) ∈ arcs) (h : UnionFind.Sized m sets)
    (hkept : Kept parent sets.parentOf) (hmarks : Marks (region parent roots) m affected) :
    Returns (fun fuel => if roots.isEmpty then some sets
      else (countLoop m (fun _ v sets => some (resetVertex affected v sets)) fuel 0 sets).bind
        fun sets => countLoop m (rebuildVertex g affected) fuel 0 sets)
      fun sets' => UnionFind.Sized m sets' ∧ Represents sets'.parentOf fun p q =>
        (Relation.EqvGen (fun p q => (p, q) ∈ arcs) p q ∧ p ∉ region parent roots ∧
          q ∉ region parent roots) ∨ p ∈ region parent roots ∧ q ∈ region parent roots ∧
          (p, q) ∈ arcs' := by
  classical
  have hrep := hE.kept hkept
  cases roots with
  | nil =>
    have hnone : ∀ v, v ∉ region parent [] := fun v ⟨r, hr, _⟩ => List.not_mem_nil hr
    refine Returns.pure ⟨h, hrep.congr (fun p q hpq => .rel _ _ ?_) fun p q hpq => ?_⟩
    · exact Or.inl ⟨.rel _ _ hpq, hnone p, hnone q⟩
    · exact hpq.elim (fun hold => hold.1) fun hin => absurd hin.1 (hnone p)
  | cons root rest =>
    refine (resetAll_spec h hm hmarks).bind fun sets' hsets' => ?_
    obtain ⟨hsized', hparent', -⟩ := hsets'
    have hreset := hrep.reset (mem_region_iff_parent hE.forest hkept (root :: rest))
    rw [← hparent'] at hreset
    refine uniteArcs_spec hserves hcount hm hsized' hreset _
      (fun v => v < affected.length && affected.getD v 0 ≠ 0) (fun v hv => ?_)
      fun fuel u sets hu => ?_
    · rw [hmarks.length_eq, decide_eq_true hv, Bool.true_and, decide_eq_true_eq]
      exact hmarks.marked v hv
    · rw [rebuildVertex, hmarks.length_eq, decide_eq_true hu, Bool.true_and]
      by_cases hzero : affected.getD u 0 = 0
      · rw [if_pos hzero, if_neg (by simpa using hzero)]
      · rw [if_neg hzero, if_pos (by simpa using hzero)]

/-- The part of `apply` after the graph has changed. -/
theorem finish_spec {batch : UpdateBatch} {roots : List VertexId} {marking : Marking} {m : ℕ}
    (hserves : Serves g (applyAll false arcs batch.updates)) (hcount : vertexCount g = m)
    (hle : n ≤ m) (hm : m < 2 ^ 32) (hundirected : Undirected arcs)
    (hE : Represents parent fun p q => (p, q) ∈ arcs) (h : UnionFind.Sized n marking.sets)
    (hkept : Kept parent marking.sets.parentOf)
    (hmarks : Marks (region parent roots) n marking.affected)
    (hremoved : ∀ p q, (p, q) ∈ arcs → (p, q) ∉ applyAll false arcs batch.updates →
      p ∈ region parent roots) :
    Returns (fun fuel => finish g (canonicalizeUndirected batch) roots fuel marking) fun engine =>
      engine.graph = g ∧ UnionFind.Sized m engine.sets ∧
        Represents engine.sets.parentOf fun p q => (p, q) ∈ applyAll false arcs batch.updates := by
  unfold finish
  rw [hcount]
  refine (ensureCapacity_spec h hm).bind fun sets hsets => ?_
  obtain ⟨hsized, hparent, -⟩ := hsets
  rw [max_eq_right hle] at hsized
  rw [← hparent] at hkept
  dsimp only
  rw [hsized.parent_length, length_resize]
  refine (rebuildRegion_spec hserves hcount hm hE hsized hkept (hmarks.resize hle)).bind
    fun sets' hsets' => ?_
  refine Returns.map ((uniteAdditions_spec hserves hcount hsets'.1 hsets'.2
    (canonicalizeUndirected batch).updates).mono fun last hlast => ⟨rfl, hlast.1, ?_⟩)
  exact represents_repaired (fun p q hpq => mem_region_iff_of_arc hE roots hpq) hremoved hlast.2
    hundirected

/-- The vertices that `apply` marks before the graph changes. -/
theorem marking_spec (hforest : Forest parent) (h : UnionFind.Sized n sets) (hn : n < 2 ^ 32)
    (hkept : Kept parent sets.parentOf) (roots : List VertexId)
    (hwithin : ∀ v ∈ region parent roots, v.val < n) :
    Returns (fun fuel =>
      if roots.isEmpty then some { affected := List.replicate n 0, sets := sets }
      else countLoop n (markAffected roots) fuel 0
        { affected := List.replicate n 0, sets := sets }) fun marking =>
        UnionFind.Sized n marking.sets ∧ Kept parent marking.sets.parentOf ∧
          Marks (region parent roots) n marking.affected := by
  cases roots with
  | nil =>
    refine Returns.pure ⟨h, hkept, List.length_replicate, fun v hv => ?_, hwithin⟩
    rw [List.getD_replicate _ hv]
    exact iff_of_false (fun hne => hne rfl) fun ⟨r, hr, _⟩ => List.not_mem_nil hr
  | cons root rest => exact markAffected_spec hforest h hn hkept (root :: rest) hwithin

/-- The region that a batch resets: it holds both ends of every arc that disappears, and it is
made of vertices. -/
theorem region_spec (h : Correct engine arcs) {batch : UpdateBatch} {roots : List VertexId}
    (hroots : ∀ r, r ∈ roots ↔ ∃ op ∈ (canonicalizeUndirected batch).updates,
      Removes engine.graph (vertexCount engine.graph) op ∧
        (RootOf engine.sets.parentOf op.src r ∨ RootOf engine.sets.parentOf op.dst r)) :
    (∀ v ∈ region engine.sets.parentOf roots, v.val < vertexCount engine.graph) ∧
      ∀ p q, (p, q) ∈ arcs → (p, q) ∉ applyAll false arcs batch.updates →
        p ∈ region engine.sets.parentOf roots := by
  constructor
  · rintro v ⟨r, hr, hroot⟩
    obtain ⟨op, -, hremoves, hends⟩ := (hroots r).mp hr
    have hrlt : r.val < vertexCount engine.graph := by
      rcases hends with hsrc | hdst
      · exact h.sized.root_lt hremoves.2.1 hsrc
      · exact h.sized.root_lt hremoves.2.2.1 hdst
    by_contra hout
    have halone := hroot.unique (.root (h.sized.parentOf_of_le (not_lt.mp hout)))
    exact hout (halone ▸ hrlt)
  · intro p q hold hnew
    have hpresent : present (applyAll false arcs batch.updates) p q = false :=
      Bool.eq_false_iff.mpr fun heq => hnew (present_eq_true.mp heq)
    have hchanged : present (applyAll false arcs batch.updates) p q ≠ present arcs p q := by
      rw [hpresent, present_eq_true.mpr hold]
      exact Bool.false_ne_true
    obtain ⟨op, hop, hadd, haddressed⟩ := exists_canonical_undirected hchanged
    rw [hpresent] at hadd
    have hback := h.serves.simple.undirected h.undirected p q hold
    have hlt := h.serves.simple.within p q hold
    obtain ⟨r, hr⟩ := h.represents.forest p
    have hedge : ∀ u v, (u, v) ∈ arcs → hasEdge engine.graph u v = true := fun u v huv => by
      rw [h.serves.hasEdge, present_eq_true.mpr huv]
    refine ⟨r, (hroots r).mpr ⟨op, hop, ?_⟩, hr⟩
    rcases haddressed with ⟨rfl, rfl⟩ | ⟨rfl, rfl⟩
    · exact ⟨⟨hadd, hlt.1, hlt.2, hedge _ _ hold⟩, Or.inl hr⟩
    · exact ⟨⟨hadd, hlt.2, hlt.1, hedge _ _ hback⟩, Or.inr hr⟩

/-- A batch keeps the engine right as long as the vertices can be counted. -/
theorem Correct.apply (h : Correct engine arcs) {batch : UpdateBatch}
    (happlies : Applies engine.graph arcs batch)
    (hcount : vertexCount (applyUpdates engine.graph batch) < 2 ^ 32) :
    Returns (fun fuel => engine.apply fuel batch) fun engine' =>
      Correct engine' (applyAll false arcs batch.updates) ∧
        engine'.graph = if batch.empty then engine.graph else applyUpdates engine.graph batch := by
  unfold IncrementalComponents.apply
  by_cases hempty : batch.empty = true
  · have hnil : batch.updates = [] := List.isEmpty_iff.mp hempty
    simp only [if_pos hempty, hnil]
    exact Returns.pure ⟨⟨h.serves, h.undirected, h.count_lt, h.sized, h.represents⟩, rfl⟩
  simp only [if_neg hempty]
  have hserves := happlies.serves
  rw [h.undirected] at hserves
  refine (collectRoots_spec h.represents.forest h.sized _).bind fun state hstate => ?_
  obtain ⟨roots, sets⟩ := state
  obtain ⟨hsized, hkept, hroots⟩ := hstate
  obtain ⟨hwithin, hremoved⟩ := region_spec h hroots
  dsimp only
  rw [hsized.parent_length]
  refine (marking_spec h.represents.forest hsized h.count_lt hkept roots hwithin).bind
    fun marking hmarking => ?_
  refine (finish_spec hserves rfl happlies.vertexCount_le hcount
    (h.serves.simple.undirected h.undirected) h.represents hmarking.1 hmarking.2.1 hmarking.2.2
    hremoved).mono fun engine' hengine => ?_
  obtain ⟨hgraph, hsized', hrep⟩ := hengine
  exact ⟨⟨hgraph ▸ hserves, hgraph ▸ happlies.directed.trans h.undirected, hgraph ▸ hcount,
    hgraph ▸ hsized', hrep⟩, hgraph⟩

/-- A batch after which the vertices cannot be counted does not end. -/
theorem Correct.apply_starves (h : Correct engine arcs) {batch : UpdateBatch}
    (hempty : batch.empty = false)
    (hcount : 2 ^ 32 ≤ vertexCount (applyUpdates engine.graph batch)) :
    Starves fun fuel => engine.apply fuel batch := by
  unfold IncrementalComponents.apply
  simp only [hempty, Bool.false_eq_true, if_false]
  refine (collectRoots_spec h.represents.forest h.sized _).starves_bind fun state hstate => ?_
  obtain ⟨roots, sets⟩ := state
  obtain ⟨hsized, hkept, hroots⟩ := hstate
  dsimp only
  rw [hsized.parent_length]
  refine (marking_spec h.represents.forest hsized h.count_lt hkept roots
    (region_spec h hroots).1).starves_bind fun marking hmarking => ?_
  refine Diverges.starves (Diverges.bind ?_)
  unfold ensureCapacity
  rw [hmarking.1.parent_length]
  simp only [if_neg (not_le.mpr (h.count_lt.trans_le hcount))]
  exact diverges_countLoop hcount _ _ _

/-- Rebuilding an engine. -/
theorem rebuild_spec (hserves : Serves engine.graph arcs)
    (hundirected : isDirected engine.graph = false) (hsmall : vertexCount engine.graph < 2 ^ 31) :
    Returns (fun fuel => engine.rebuild fuel) fun engine' =>
      Correct engine' arcs ∧ engine'.graph = engine.graph := by
  have hcount : vertexCount engine.graph < 2 ^ 32 := hsmall.trans (by norm_num)
  unfold rebuild iota
  simp only [if_pos hsmall, Option.bind_some]
  obtain ⟨hsized, hparent⟩ := alone_spec (vertexCount engine.graph)
  have hunited := uniteArcs_spec hserves rfl hcount hsized (represents_roots hparent)
    (R := Set.univ) (fun fuel u sets => uniteNeighbors fuel engine.graph (fun _ => true) u sets)
    (fun _ => true) (fun v _ => iff_of_true rfl trivial) (fun fuel u sets _ => rfl)
  refine Returns.map (hunited.mono fun sets hsets => ⟨⟨hserves, hundirected, hcount, hsets.1, ?_⟩,
    rfl⟩)
  refine hsets.2.congr (fun p q hpq => .rel _ _ ?_) fun p q hpq => .rel _ _ ?_
  · exact hpq.elim False.elim fun hin => hin.2.2
  · exact Or.inr ⟨trivial, trivial, hpq⟩

/-- Where the vertices are too many for the `int` of `std::iota`, the constructor has no result. -/
theorem rebuild_diverges (hcount : 2 ^ 31 ≤ vertexCount engine.graph) :
    Diverges fun fuel => engine.rebuild fuel := by
  intro fuel
  unfold rebuild iota
  simp only [if_neg (not_lt.mpr hcount), Option.bind_none]

/-- `component` returns the root and keeps the engine right. -/
theorem Correct.component (h : Correct engine arcs) {v : VertexId}
    (hv : v.val < vertexCount engine.graph) {r : VertexId}
    (hroot : RootOf engine.sets.parentOf v r) :
    Returns (fun fuel => engine.component fuel v) fun result =>
      result.1 = .ok r ∧ Correct result.2 arcs ∧ result.2.graph = engine.graph ∧
        Kept engine.sets.parentOf result.2.sets.parentOf := by
  unfold IncrementalComponents.component
  rw [h.sized.parent_length]
  simp only [if_neg (not_le.mpr hv)]
  refine Returns.map ((find_spec h.sized hv hroot).mono fun found hfound => ?_)
  obtain ⟨root, sets⟩ := found
  obtain ⟨rfl, hsized, hkept⟩ := hfound
  exact ⟨rfl, ⟨h.serves, h.undirected, h.count_lt, hsized, h.represents.kept hkept⟩, rfl, hkept⟩

end IncrementalComponents

end VeloGraphX
