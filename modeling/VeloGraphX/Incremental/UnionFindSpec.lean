import Mathlib
import VeloGraphX.Incremental.ConnectedComponents

/-!
# The union-find structure of the component engine

Read through its parents the structure is a forest of disjoint sets. Finding a root compresses
paths and keeps every root, growing adds vertices that are alone, and a union adds a pair to the
relation whose classes are the sets; ranks only choose which root is linked below the other.
-/

namespace VeloGraphX

open FuelLoop PointUpdate DisjointSets

namespace UnionFind

/-- The parent of a vertex; ids beyond the end are alone. -/
def parentOf (sets : UnionFind) (v : VertexId) : VertexId := sets.parent.getD v v

/-- The rank of a vertex; ids beyond the end have rank zero. -/
def rankOf (sets : UnionFind) (v : VertexId) : ℕ := sets.rank.getD v 0

/-- The arrays have one entry for each vertex, and parents are vertices. -/
structure Sized (n : ℕ) (sets : UnionFind) : Prop where
  parent_length : sets.parent.length = n
  rank_length : sets.rank.length = n
  parent_lt : ∀ v : VertexId, v.val < n → (sets.parentOf v).val < n

variable {n : ℕ} {sets : UnionFind} {x y r : VertexId} {E : VertexId → VertexId → Prop}

/-- Inside the array every default reads the parent. -/
theorem getD_parent (h : Sized n sets) (hx : x.val < n) (d : VertexId) :
    sets.parent.getD x d = sets.parentOf x := by
  have hlt : x.val < sets.parent.length := h.parent_length.symm ▸ hx
  rw [parentOf, List.getD_eq_getElem _ _ hlt, List.getD_eq_getElem _ _ hlt]

/-- Beyond the end a vertex is alone. -/
theorem Sized.parentOf_of_le (h : Sized n sets) (hx : n ≤ x.val) : sets.parentOf x = x :=
  List.getD_eq_default _ _ (h.parent_length.le.trans hx)

/-- Writing a parent. -/
theorem parentOf_set (h : Sized n sets) (hx : x.val < n) (rank : List ℕ) :
    parentOf { parent := sets.parent.set x r, rank := rank } =
      Function.update sets.parentOf x r :=
  getD_set_update (h.parent_length.symm ▸ hx) r id

/-- Writing a rank. -/
theorem rankOf_set (h : Sized n sets) (hx : x.val < n) (parent : List VertexId) (k : ℕ) :
    rankOf { parent := parent, rank := sets.rank.set x k } =
      Function.update sets.rankOf x k :=
  getD_set_update (h.rank_length.symm ▸ hx) k fun _ => 0

/-- A structure stays sized when a vertex gets a vertex as its parent. -/
theorem Sized.set (h : Sized n sets) (hx : x.val < n) (hr : r.val < n) {rank : List ℕ}
    (hrank : rank.length = n) : Sized n { parent := sets.parent.set x r, rank := rank } := by
  refine ⟨(List.length_set).trans h.parent_length, hrank, fun v hv => ?_⟩
  rw [parentOf_set h hx]
  by_cases hvx : v = x
  · rw [hvx, Function.update_self]
    exact hr
  · rw [Function.update_of_ne hvx]
    exact h.parent_lt v hv

/-- The root of a vertex is a vertex. -/
theorem Sized.root_lt (h : Sized n sets) (hx : x.val < n) (hroot : RootOf sets.parentOf x r) :
    r.val < n := by
  induction hroot with
  | root _ => exact hx
  | step _ _ ih => exact ih (h.parent_lt _ hx)

/-- The ids that `iota` counts. -/
theorem iota_eq_some {parent : List VertexId} (h : iota n = some parent) :
    parent = (List.range n).map fun v => Fin.ofNat (2 ^ 32) v := by
  unfold iota at h
  split at h
  · exact (Option.some.inj h).symm
  · exact absurd h (Option.some_ne_none _).symm

/-- At first every vertex is alone. -/
theorem alone_spec (n : ℕ) :
    Sized n ⟨(List.range n).map fun v => Fin.ofNat (2 ^ 32) v, List.replicate n 0⟩ ∧
      ∀ v, parentOf ⟨(List.range n).map fun v => Fin.ofNat (2 ^ 32) v, List.replicate n 0⟩ v =
        v := by
  have hparent : ∀ v : VertexId,
      parentOf ⟨(List.range n).map fun v => Fin.ofNat (2 ^ 32) v, List.replicate n 0⟩ v = v := by
    intro v
    rw [parentOf, List.getD_eq_getElem?_getD, List.getElem?_map]
    by_cases hv : v.val < n
    · rw [List.getElem?_range hv, Option.map_some, Option.getD_some]
      exact Fin.ext (Nat.mod_eq_of_lt v.isLt)
    · rw [List.getElem?_eq_none (by rw [List.length_range]; exact not_lt.mp hv), Option.map_none,
        Option.getD_none]
  exact ⟨⟨by rw [List.length_map, List.length_range], List.length_replicate,
    fun v hv => (hparent v).symm ▸ hv⟩, hparent⟩

/-- `find` returns the root and keeps all roots. -/
theorem find_spec (h : Sized n sets) (hx : x.val < n) (hroot : RootOf sets.parentOf x r) :
    Returns (fun fuel => sets.find fuel x) fun result =>
      result.1 = r ∧ Sized n result.2 ∧ Kept sets.parentOf result.2.parentOf := by
  induction hroot with
  | root hself =>
    refine ⟨(_, sets), ⟨rfl, h, Kept.refl _⟩, 1, fun fuel hfuel => ?_⟩
    obtain ⟨k, rfl⟩ := Nat.exists_eq_add_of_le' hfuel
    simp only [find, getD_parent h hx, if_pos hself]
  | step hmoves hrest ih =>
    rename_i x r
    obtain ⟨result, ⟨heq, hsized, hkept⟩, bound, hrun⟩ := ih (h.parent_lt _ hx)
    have hlt := h.root_lt (h.parent_lt _ hx) hrest
    have hcompressed := kept_compress (hkept x r (.step hmoves hrest))
    refine ⟨(result.1, { result.2 with parent := result.2.parent.set x result.1 }),
      ⟨heq, ?_, ?_⟩, bound + 1, fun fuel hfuel => ?_⟩
    · exact hsized.set hx (heq.symm ▸ hlt) hsized.rank_length
    · rw [parentOf_set hsized hx, heq]
      exact hkept.trans hcompressed
    · obtain ⟨k, rfl⟩ := Nat.exists_eq_add_of_le' (le_trans (Nat.le_add_left 1 bound) hfuel)
      have hinner : sets.find k (sets.parentOf x) = some result :=
        hrun k (Nat.le_of_succ_le_succ hfuel)
      simp only [find, getD_parent h hx, if_neg hmoves, hinner]
      rfl

/-- Linking two roots adds the pair whose roots they are. -/
theorem link_spec (h : Sized n sets) (hE : Represents sets.parentOf E) {a b : VertexId}
    (hx : RootOf sets.parentOf x a) (hy : RootOf sets.parentOf y b) (ha : a.val < n)
    (hb : b.val < n) :
    Sized n (sets.link a b) ∧ Represents (sets.link a b).parentOf (addPair E x y) := by
  unfold link
  by_cases hab : a = b
  · rw [if_pos hab]
    exact ⟨h, hE.addPair_of_same ⟨a, hx, hab ▸ hy⟩⟩
  · rw [if_neg hab]
    by_cases hrank : sets.rank.getD a 0 < sets.rank.getD b 0
    · simp only [if_pos hrank]
      refine ⟨h.set ha hb ?_, ?_⟩
      · split
        · exact (List.length_set).trans h.rank_length
        · exact h.rank_length
      · rw [parentOf_set h ha]
        exact hE.link' hx hy hab
    · simp only [if_neg hrank]
      refine ⟨h.set hb ha ?_, ?_⟩
      · split
        · exact (List.length_set).trans h.rank_length
        · exact h.rank_length
      · rw [parentOf_set h hb]
        exact hE.link hx hy hab

/-- `ensure_capacity` has nothing to do when every vertex has an entry. -/
theorem ensureCapacity_of_le (h : Sized n sets) {vertices : ℕ} (hle : vertices ≤ n) (fuel : ℕ) :
    sets.ensureCapacity fuel vertices = some sets :=
  if_pos (h.parent_length.symm ▸ hle)

/-- `ensure_capacity` adds vertices that are alone. -/
theorem ensureCapacity_spec (h : Sized n sets) {vertices : ℕ} (hlt : vertices < 2 ^ 32) :
    Returns (fun fuel => sets.ensureCapacity fuel vertices) fun sets' =>
      Sized (max n vertices) sets' ∧ sets'.parentOf = sets.parentOf ∧
        sets'.rankOf = sets.rankOf := by
  by_cases hle : vertices ≤ n
  · simp only [ensureCapacity_of_le h hle]
    exact Returns.pure ⟨(max_eq_left hle).symm ▸ h, rfl, rfl⟩
  have hgrows : n ≤ vertices := (not_le.mp hle).le
  have hfirst : (Fin.ofNat (2 ^ 32) n).val = n := Nat.mod_eq_of_lt (hgrows.trans_lt hlt)
  unfold ensureCapacity
  simp only [h.parent_length, if_neg hle, max_eq_right hgrows]
  refine (returns_countLoop hlt (fun i (sets' : UnionFind) => n ≤ i ∧
    sets'.parent.length = vertices ∧ sets'.rank = resize sets.rank vertices 0 ∧
    ∀ v : VertexId, v.val < i ∨ vertices ≤ v.val → sets'.parentOf v = sets.parentOf v)
    (fun v sets' hv hinv => ?_) (hfirst.le.trans hgrows) ?_).mono fun sets' hsets' => ?_
  · obtain ⟨hi, hparent, hrank, hsame⟩ := hinv
    refine Returns.pure ⟨Nat.le_succ_of_le hi, (List.length_set).trans hparent, hrank,
      fun w hw => ?_⟩
    rw [parentOf, getD_set (hparent.symm ▸ hv)]
    by_cases hwv : w = v
    · rw [if_pos (congrArg Fin.val hwv), hwv, h.parentOf_of_le hi]
    · rw [if_neg fun heq => hwv (Fin.ext heq)]
      refine hsame w (hw.imp (fun hlt => ?_) id)
      exact lt_of_le_of_ne (Nat.le_of_lt_succ hlt) fun heq => hwv (Fin.ext heq)
  · rw [hfirst]
    refine ⟨le_rfl, length_resize _ _ _, rfl, fun v hv => ?_⟩
    have hread := getD_resize (h.parent_length.le.trans hgrows) 0 v v.val
    rw [parentOf, hread, h.parent_length]
    rcases hv with hvn | hvn
    · rw [if_pos hvn]
      rfl
    · rw [if_neg (not_lt.mpr (hgrows.trans hvn)), if_neg (not_lt.mpr hvn),
        h.parentOf_of_le (hgrows.trans hvn)]
  · obtain ⟨-, hparent, hrank, hsame⟩ := hsets'
    have heq : sets'.parentOf = sets.parentOf := by
      funext v
      exact hsame v (lt_or_ge _ _)
    refine ⟨⟨hparent, hrank ▸ length_resize _ _ _, fun v hv => ?_⟩, heq, funext fun v => ?_⟩
    · rw [heq]
      by_cases hvn : v.val < n
      · exact (h.parent_lt v hvn).trans_le hgrows
      · rw [h.parentOf_of_le (not_lt.mp hvn)]
        exact hv
    · rw [rankOf, hrank, getD_resize (h.rank_length.le.trans hgrows)]
      split
      · rfl
      · rename_i hout
        rw [ite_self, rankOf, List.getD_eq_default _ _ (not_lt.mp hout)]

/-- `unite` adds its pair. -/
theorem unite_spec (h : Sized n sets) (hE : Represents sets.parentOf E) {vertices : ℕ}
    (hle : vertices ≤ n) (hx : x.val < n) (hy : y.val < n) :
    Returns (fun fuel => sets.unite fuel vertices x y) fun sets' =>
      Sized n sets' ∧ Represents sets'.parentOf (addPair E x y) := by
  obtain ⟨a, ha⟩ := hE.forest x
  obtain ⟨b, hb⟩ := hE.forest y
  unfold unite
  simp only [ensureCapacity_of_le h hle, Option.bind_some]
  refine (find_spec h hx ha).bind fun first hfirst => ?_
  obtain ⟨root, found⟩ := first
  obtain ⟨rfl, hsized, hkept⟩ := hfirst
  refine Returns.map ((find_spec hsized hy (hkept y b hb)).mono fun second hsecond => ?_)
  obtain ⟨root', found'⟩ := second
  obtain ⟨rfl, hsized', hkept'⟩ := hsecond
  have hall := hkept.trans hkept'
  exact link_spec hsized' (hE.kept hall) (hall x _ ha) (hall y _ hb) (h.root_lt hx ha)
    (h.root_lt hy hb)

/-- A loop that unites some pairs. -/
theorem uniteAll_spec {α : Type} {vertices : ℕ} (hle : vertices ≤ n)
    (body : ℕ → UnionFind → α → Option UnionFind) (cond : α → Prop) [DecidablePred cond]
    (pair : α → VertexId × VertexId) (list : List α)
    (hbody : ∀ a ∈ list, ∀ sets, Sized n sets → ∀ fuel, body fuel sets a =
      if cond a then unite fuel vertices sets (pair a).1 (pair a).2 else some sets)
    (hwithin : ∀ a ∈ list, cond a → (pair a).1.val < n ∧ (pair a).2.val < n)
    (h : Sized n sets) (hE : Represents sets.parentOf E) :
    Returns (fun fuel => foldRun (body fuel) list sets) fun sets' =>
      Sized n sets' ∧ Represents sets'.parentOf fun p q =>
        E p q ∨ ∃ a ∈ list, cond a ∧ pair a = (p, q) := by
  induction list generalizing sets E with
  | nil =>
    refine Returns.pure ⟨h, hE.congr (fun p q hpq => .rel _ _ (Or.inl hpq)) fun p q hpq => ?_⟩
    rcases hpq with hpq | ⟨a, ha, -⟩
    · exact .rel _ _ hpq
    · exact absurd ha List.not_mem_nil
  | cons a rest ih =>
    have hhead : Returns (fun fuel => body fuel sets a) fun sets' => Sized n sets' ∧
        Represents sets'.parentOf fun p q => E p q ∨ cond a ∧ pair a = (p, q) := by
      simp only [hbody a List.mem_cons_self sets h]
      by_cases hcond : cond a
      · have hlt := hwithin a List.mem_cons_self hcond
        simp only [if_pos hcond]
        refine (unite_spec h hE hle hlt.1 hlt.2).mono fun sets' hsets' => ⟨hsets'.1, ?_⟩
        refine hsets'.2.congr (fun p q hpq => .rel _ _ ?_) fun p q hpq => .rel _ _ ?_
        · exact hpq.imp id fun heq => ⟨hcond, Prod.ext heq.1.symm heq.2.symm⟩
        · exact hpq.imp id fun heq => ⟨(congrArg Prod.fst heq.2).symm, (congrArg Prod.snd heq.2).symm⟩
      · simp only [if_neg hcond]
        refine Returns.pure ⟨h, hE.congr (fun p q hpq => .rel _ _ (Or.inl hpq)) fun p q hpq => ?_⟩
        exact .rel _ _ (hpq.resolve_right fun heq => hcond heq.1)
    refine hhead.bind fun sets' hsets' => ?_
    refine (ih (fun b hb => hbody b (List.mem_cons_of_mem _ hb))
      (fun b hb => hwithin b (List.mem_cons_of_mem _ hb)) hsets'.1 hsets'.2).mono fun last hlast =>
        ⟨hlast.1, ?_⟩
    refine hlast.2.congr (fun p q hpq => .rel _ _ ?_) fun p q hpq => .rel _ _ ?_
    · rcases hpq with (hpq | hpq) | ⟨b, hb, hpq⟩
      · exact Or.inl hpq
      · exact Or.inr ⟨a, List.mem_cons_self, hpq⟩
      · exact Or.inr ⟨b, List.mem_cons_of_mem _ hb, hpq⟩
    · rcases hpq with hpq | ⟨b, hb, hpq⟩
      · exact Or.inl (Or.inl hpq)
      · rcases List.mem_cons.mp hb with rfl | hb
        · exact Or.inl (Or.inr hpq)
        · exact Or.inr ⟨b, hb, hpq⟩

end UnionFind

end VeloGraphX
