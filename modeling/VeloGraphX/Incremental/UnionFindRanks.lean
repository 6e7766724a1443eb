import Mathlib
import VeloGraphX.Incremental.UnionFindSpec
import VeloGraphX.Lib.EventLog
import VeloGraphX.Lib.UnionByRank

/-!
# Ranks of the union-find structure

The ranks bound the depth of the recursion of `find`: they rise along the parents up to 32, as there
are no more than `2 ^ 32` ids. The operations are run together with a log of the calls of `find` and
of the ranks that are counted up, each with the state it is met in.
-/

namespace VeloGraphX

open FuelLoop PointUpdate DisjointSets

/-- What is logged: a call of `find`, and a rank that is counted up. -/
inductive SetEvent
  | find (sets : UnionFind) (x : VertexId)
  | increment (rank : ℕ)

/-- `find` is called on a forest that is ordered by rank, and 33 nested calls are enough for it; a rank
that is counted up stays in 8 bits. -/
def SetEvent.Allowed : SetEvent → Prop
  | find sets x => Forest sets.parentOf ∧ Ranked sets.parentOf sets.rankOf ∧
      ∃ found, sets.find 33 x = some found
  | increment rank => rank + 1 < 2 ^ 8

namespace UnionFind

/-- `find`, logged. -/
def findLogged (fuel : ℕ) (sets : UnionFind) (x : VertexId) :
    Logged SetEvent (VertexId × UnionFind) :=
  .call (.find sets x) (sets.find fuel x)

/-- `link`, logged: equal ranks of different roots are counted up. -/
def linkLogged (sets : UnionFind) (a b : VertexId) : Logged SetEvent UnionFind :=
  if a ≠ b ∧ sets.rank.getD a 0 = sets.rank.getD b 0 then
    .call (.increment (sets.rank.getD a 0)) (some (sets.link a b))
  else .silent (some (sets.link a b))

/-- `unite`, logged. -/
def uniteLogged (fuel : ℕ) (vertices : ℕ) (sets : UnionFind) (a b : VertexId) :
    Logged SetEvent UnionFind :=
  (Logged.silent (sets.ensureCapacity fuel vertices)).bind fun sets =>
  (sets.findLogged fuel a).bind fun (a, sets) =>
  (sets.findLogged fuel b).bind fun (b, sets) => sets.linkLogged a b

/-- A structure of the engine: its arrays are sized and its parents are ordered by rank. -/
structure Balanced (n : ℕ) (sets : UnionFind) : Prop where
  sized : Sized n sets
  ranked : Ranked sets.parentOf sets.rankOf

variable {n : ℕ} {sets : UnionFind} {x y r : VertexId}

@[simp] theorem linkLogged_result (sets : UnionFind) (a b : VertexId) :
    (sets.linkLogged a b).result = some (sets.link a b) := by
  unfold linkLogged
  split
  · rfl
  · rfl

/-- The log does not change what `unite` does. -/
theorem uniteLogged_result (fuel vertices : ℕ) (sets : UnionFind) (a b : VertexId) :
    (sets.uniteLogged fuel vertices a b).result = sets.unite fuel vertices a b := by
  unfold uniteLogged unite findLogged
  simp only [Logged.bind_result, Logged.silent_result, Logged.call_result, linkLogged_result,
    Option.map_eq_bind]
  rfl

/-- No rank is above 32. -/
theorem Balanced.rank_le (h : Balanced n sets) (x : VertexId) : sets.rankOf x ≤ 32 :=
  h.ranked.rank_le (Nat.card_fin _).le x

/-- A path to the root is no longer than the difference of the ranks. -/
theorem find_of_rank_lt (h : Balanced n sets) (hx : x.val < n) (hroot : RootOf sets.parentOf x r)
    {depth : ℕ} (hdepth : sets.rankOf r < sets.rankOf x + depth) :
    ∃ found, sets.find depth x = some found := by
  induction hroot generalizing depth with
  | root hself =>
    obtain ⟨k, rfl⟩ : ∃ k, depth = k + 1 := ⟨depth - 1, by omega⟩
    simp only [find, getD_parent h.sized hx, if_pos hself]
    exact ⟨_, rfl⟩
  | step hmoves hrest ih =>
    rename_i x r
    have hrises := h.ranked.rank_lt x hmoves
    have hbelow := h.ranked.rank_le_root hrest
    obtain ⟨k, rfl⟩ : ∃ k, depth = k + 1 := ⟨depth - 1, by omega⟩
    obtain ⟨found, hfound⟩ : ∃ found, sets.find k (sets.parentOf x) = some found :=
      ih (h.sized.parent_lt x hx) (by omega)
    simp only [find, getD_parent h.sized hx, if_neg hmoves, hfound]
    exact ⟨_, rfl⟩

/-- In a structure of the engine 33 nested calls are enough for `find`. -/
theorem Balanced.find_within (h : Balanced n sets) (hx : x.val < n) :
    ∃ found, sets.find 33 x = some found := by
  obtain ⟨r, hr⟩ := h.ranked.forest x
  have hle := h.rank_le r
  exact find_of_rank_lt h hx hr (by omega)

/-- So a call of `find` is allowed. -/
theorem Balanced.allowed (h : Balanced n sets) (hx : x.val < n) :
    (SetEvent.find sets x).Allowed :=
  ⟨h.ranked.forest, h.ranked, h.find_within hx⟩

/-- What `find` ends with: the root, the old roots and the old ranks. -/
theorem Balanced.find (h : Balanced n sets) {fuel : ℕ} {found : VertexId × UnionFind}
    (hx : x.val < n) (hrun : sets.find fuel x = some found) :
    RootOf sets.parentOf x found.1 ∧ Balanced n found.2 ∧
      Kept sets.parentOf found.2.parentOf ∧ found.2.rankOf = sets.rankOf := by
  induction fuel generalizing x found with
  | zero => exact absurd hrun.symm (Option.some_ne_none found)
  | succ fuel ih =>
    rw [UnionFind.find, getD_parent h.sized hx] at hrun
    by_cases hself : sets.parentOf x = x
    · rw [if_pos hself] at hrun
      obtain rfl := Option.some.inj hrun
      exact ⟨.root hself, h, Kept.refl _, rfl⟩
    · rw [if_neg hself] at hrun
      obtain ⟨above, habove, rfl⟩ := Option.map_eq_some_iff.mp hrun
      obtain ⟨hroot, hbalanced, hkept, hrank⟩ := ih (h.sized.parent_lt x hx) habove
      have hfound : RootOf sets.parentOf x above.1 := .step hself hroot
      have hcompressed := hbalanced.ranked.compress (hkept x above.1 hfound)
      rw [← parentOf_set hbalanced.sized hx above.2.rank] at hcompressed
      refine ⟨hfound, ⟨?_, hcompressed⟩, ?_, hrank⟩
      · exact hbalanced.sized.set hx (h.sized.root_lt hx hfound) hbalanced.sized.rank_length
      · dsimp only
        rw [parentOf_set hbalanced.sized hx]
        exact hkept.trans (kept_compress (hkept x above.1 hfound))

/-- `find` is called as it may be, and keeps the structure. -/
theorem Balanced.findLogged (h : Balanced n sets) (hx : x.val < n) (fuel : ℕ) :
    (sets.findLogged fuel x).Obeys SetEvent.Allowed fun found =>
      RootOf sets.parentOf x found.1 ∧ Balanced n found.2 ∧
        Kept sets.parentOf found.2.parentOf :=
  .call (h.allowed hx) fun _ hrun => (h.find hx hrun).imp_right (And.imp_right And.left)

/-- A root is linked below another one of no lower rank. -/
theorem Balanced.set_link (h : Balanced n sets) {a b : VertexId} (ha : sets.parentOf a = a)
    (hb : sets.parentOf b = b) (hne : a ≠ b) (hla : a.val < n) (hlb : b.val < n)
    (hle : sets.rankOf b ≤ sets.rankOf a) :
    Balanced n
      { parent := sets.parent.set b a
        rank := if sets.rankOf a = sets.rankOf b then
            sets.rank.set a ((sets.rankOf a + 1) % 2 ^ 8)
          else sets.rank } := by
  have hlinked := h.ranked.link ha hb hne hle
  have hfits : (sets.rankOf a + 1) % 2 ^ 8 = sets.rankOf a + 1 := by
    have hbound := h.rank_le a
    exact Nat.mod_eq_of_lt (by omega)
  rw [hfits]
  unfold linkedRank at hlinked
  split at hlinked
  · rename_i heq
    rw [if_pos heq]
    refine ⟨h.sized.set hlb hla ((List.length_set).trans h.sized.rank_length), ?_⟩
    rw [parentOf_set h.sized hlb, rankOf_set h.sized hla]
    exact hlinked
  · rename_i hneq
    rw [if_neg hneq]
    refine ⟨h.sized.set hlb hla h.sized.rank_length, ?_⟩
    rw [parentOf_set h.sized hlb]
    exact hlinked

/-- Linking two roots keeps the structure. -/
theorem Balanced.link (h : Balanced n sets) {a b : VertexId} (ha : sets.parentOf a = a)
    (hb : sets.parentOf b = b) (hla : a.val < n) (hlb : b.val < n) :
    Balanced n (sets.link a b) := by
  unfold UnionFind.link
  by_cases hab : a = b
  · rw [if_pos hab]
    exact h
  · rw [if_neg hab]
    by_cases hrank : sets.rank.getD a 0 < sets.rank.getD b 0
    · simp only [if_pos hrank]
      exact h.set_link hb ha (Ne.symm hab) hlb hla hrank.le
    · simp only [if_neg hrank]
      exact h.set_link ha hb hab hla hlb (not_lt.mp hrank)

/-- A rank that `link` counts up fits. -/
theorem Balanced.linkLogged (h : Balanced n sets) {a b : VertexId} (ha : sets.parentOf a = a)
    (hb : sets.parentOf b = b) (hla : a.val < n) (hlb : b.val < n) :
    (sets.linkLogged a b).Obeys SetEvent.Allowed (Balanced n) := by
  have hlinked := h.link ha hb hla hlb
  unfold UnionFind.linkLogged
  split
  · have hbound : sets.rank.getD a 0 ≤ 32 := h.rank_le a
    refine .call ?_ fun _ heq => Option.some.inj heq ▸ hlinked
    change sets.rank.getD a 0 + 1 < 2 ^ 8
    omega
  · exact .pure hlinked

/-- `unite` keeps the structure. -/
theorem Balanced.uniteLogged (h : Balanced n sets) {vertices : ℕ} (hle : vertices ≤ n)
    (hx : x.val < n) (hy : y.val < n) (fuel : ℕ) :
    (sets.uniteLogged fuel vertices x y).Obeys SetEvent.Allowed (Balanced n) := by
  unfold UnionFind.uniteLogged
  rw [ensureCapacity_of_le h.sized hle]
  refine (Logged.Obeys.pure h).bind fun sets h => ?_
  refine (h.findLogged hx fuel).bind fun first hfirst => ?_
  obtain ⟨a, found⟩ := first
  obtain ⟨hroot, hfound, hkept⟩ := hfirst
  refine (hfound.findLogged hy fuel).bind fun second hsecond => ?_
  obtain ⟨b, found'⟩ := second
  obtain ⟨hroot', hfound', hkept'⟩ := hsecond
  -- the second call of `find` leaves the first root a root
  have ha : RootOf found'.parentOf x a := hkept' x a (hkept x a hroot)
  have hb : RootOf found'.parentOf y b := hkept' y b hroot'
  exact hfound'.linkLogged ha.isRoot hb.isRoot (hfound'.sized.root_lt hx ha)
    (hfound'.sized.root_lt hy hb)

/-- At first every vertex is alone, with rank zero. -/
theorem balanced_alone (n : ℕ) :
    Balanced n ⟨(List.range n).map fun v => Fin.ofNat (2 ^ 32) v, List.replicate n 0⟩ := by
  obtain ⟨hsized, hparent⟩ := alone_spec n
  refine ⟨hsized, ranked_roots hparent fun v => ?_⟩
  rw [rankOf, List.getD_eq_getElem?_getD, List.getElem?_replicate]
  split
  · rfl
  · rfl

/-- More fuel does not change what `find` ends with. -/
theorem steady_find (sets : UnionFind) (x : VertexId) : Steady fun fuel => sets.find fuel x := by
  intro fuel
  induction fuel generalizing x with
  | zero => exact fun found hrun => absurd hrun.symm (Option.some_ne_none found)
  | succ fuel ih =>
    intro found hrun fuel' hle
    obtain ⟨k, rfl⟩ := Nat.exists_eq_add_of_le' (le_trans (Nat.le_add_left 1 fuel) hle)
    simp only [UnionFind.find] at hrun ⊢
    split
    · rename_i hself
      rwa [if_pos hself] at hrun
    · rename_i hmoves
      rw [if_neg hmoves] at hrun
      obtain ⟨above, habove, hresult⟩ := Option.map_eq_some_iff.mp hrun
      exact Option.map_eq_some_iff.mpr
        ⟨above, ih _ above habove k (Nat.le_of_succ_le_succ hle), hresult⟩

/-- Nor what `ensure_capacity` ends with. -/
theorem steady_ensureCapacity (vertices : ℕ) (sets : UnionFind) :
    Steady fun fuel => sets.ensureCapacity fuel vertices := by
  unfold ensureCapacity
  dsimp only
  split
  · exact .pure _
  · refine steady_countLoop vertices (fun (v : VertexId) sets => ?_) _ _
    exact .pure (some { sets with parent := sets.parent.set v.val v })

/-- Nor what `unite` ends with. -/
theorem steady_unite (vertices : ℕ) (sets : UnionFind) (a b : VertexId) :
    Steady fun fuel => sets.unite fuel vertices a b :=
  (steady_ensureCapacity vertices sets).bind fun sets =>
    (steady_find sets a).bind fun found => (steady_find found.2 b).map _

/-- `ensure_capacity` adds vertices of rank zero that are alone, if the vertices can be counted. -/
theorem Balanced.ensureCapacity (h : Balanced n sets) (hn : n < 2 ^ 32) {vertices fuel : ℕ}
    {grown : UnionFind} (hrun : sets.ensureCapacity fuel vertices = some grown) :
    vertices < 2 ^ 32 ∧ Balanced (max n vertices) grown ∧ grown.parentOf = sets.parentOf := by
  by_cases hvertices : vertices < 2 ^ 32
  · obtain ⟨hsized, hparent, hrank⟩ :=
      (ensureCapacity_spec h.sized hvertices).of_steady (steady_ensureCapacity vertices sets) hrun
    refine ⟨hvertices, ⟨hsized, ?_⟩, hparent⟩
    rw [hparent, hrank]
    exact h.ranked
  · -- the loop over the new vertices does not end
    have hmore : ¬ vertices ≤ n := by omega
    rw [UnionFind.ensureCapacity, h.sized.parent_length, if_neg hmore] at hrun
    exact absurd (hrun.symm.trans (diverges_countLoop (not_lt.mp hvertices) _ _ _ fuel))
      (Option.some_ne_none grown)

end UnionFind

end VeloGraphX
