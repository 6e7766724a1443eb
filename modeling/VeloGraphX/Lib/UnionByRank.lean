import Mathlib
import VeloGraphX.Lib.DisjointSets

/-!
# Union by rank

Every element of a forest of parent pointers has a rank. Ranks rise along the parents, and the tree
of a root of rank `k` has at least `2 ^ k` elements, so no rank passes the logarithm of the number of
elements. Compressing a path, linking a root below one of no lower rank and pointing the elements of
whole sets to themselves keep this.
-/

namespace DisjointSets

variable {V : Type*} {parent : V → V} {rank : V → ℕ} {x r : V}

/-- Ranks rise along the parents and are paid for by the sizes of the trees. -/
structure Ranked (parent : V → V) (rank : V → ℕ) : Prop where
  rank_lt : ∀ x, parent x ≠ x → rank x < rank (parent x)
  size : ∀ r, parent r = r → 2 ^ rank r ≤ {x | RootOf parent x r}.ncard

/-- No rank is above that of the root. -/
theorem Ranked.rank_le_root (h : Ranked parent rank) (hroot : RootOf parent x r) :
    rank x ≤ rank r := by
  induction hroot with
  | root _ => exact le_rfl
  | step hmoves _ ih => exact (h.rank_lt _ hmoves).le.trans ih

/-- Below the root the ranks are lower. -/
theorem Ranked.rank_lt_root (h : Ranked parent rank) (hroot : RootOf parent x r) (hne : r ≠ x) :
    rank x < rank r := by
  cases hroot with
  | root _ => exact absurd rfl hne
  | step hmoves hrest => exact (h.rank_lt x hmoves).trans_le (h.rank_le_root hrest)

section Link

variable [DecidableEq V]

/-- The rank after a root is linked below the root `a` of no lower rank. -/
def linkedRank (rank : V → ℕ) (a b : V) : V → ℕ :=
  if rank a = rank b then Function.update rank a (rank a + 1) else rank

/-- Linking raises no rank but that of the upper root. -/
theorem linkedRank_of_ne {a b y : V} (hy : y ≠ a) : linkedRank rank a b y = rank y := by
  unfold linkedRank
  split
  · exact Function.update_of_ne hy _ _
  · rfl

/-- Linking lowers no rank. -/
theorem le_linkedRank (rank : V → ℕ) (a b y : V) : rank y ≤ linkedRank rank a b y := by
  by_cases hy : y = a
  · subst hy
    unfold linkedRank
    split
    · rw [Function.update_self]
      exact Nat.le_succ _
    · exact le_rfl
  · exact (linkedRank_of_ne hy).ge

/-- After a link the upper root has the higher rank. -/
theorem lt_linkedRank {a b : V} (hle : rank b ≤ rank a) : rank b < linkedRank rank a b a := by
  unfold linkedRank
  split
  · rw [Function.update_self]
    exact Nat.lt_succ_of_le hle
  · exact lt_of_le_of_ne hle fun heq => ‹¬ rank a = rank b› heq.symm

/-- Both trees together pay for the rank of the upper root. -/
theorem two_pow_linkedRank_le {a b : V} : 2 ^ linkedRank rank a b a ≤ 2 ^ rank a + 2 ^ rank b := by
  unfold linkedRank
  split
  · rename_i heq
    rw [Function.update_self, ← heq, Nat.pow_succ]
    omega
  · exact Nat.le_add_right _ _

end Link

section Finite

variable [Finite V]

/-- Where ranks rise along the parents, every element has a root. -/
theorem Ranked.forest (h : Ranked parent rank) : Forest parent := by
  obtain ⟨top, htop⟩ := (Set.finite_range rank).bddAbove
  intro x
  -- the distance of the rank from the largest one falls along the parents
  induction hm : top - rank x using Nat.strong_induction_on generalizing x with
  | _ m ih =>
    by_cases hself : parent x = x
    · exact ⟨x, .root hself⟩
    · have hrises := h.rank_lt x hself
      have hbound : rank (parent x) ≤ top := htop ⟨parent x, rfl⟩
      obtain ⟨r, hr⟩ := ih (top - rank (parent x)) (by omega) (parent x) rfl
      exact ⟨r, .step hself hr⟩

/-- The elements pay for every rank. -/
theorem Ranked.two_pow_le (h : Ranked parent rank) (x : V) : 2 ^ rank x ≤ Nat.card V := by
  obtain ⟨r, hr⟩ := h.forest x
  calc 2 ^ rank x
      ≤ 2 ^ rank r := Nat.pow_le_pow_right Nat.two_pos (h.rank_le_root hr)
    _ ≤ {x | RootOf parent x r}.ncard := h.size r hr.isRoot
    _ ≤ Nat.card V := by
        rw [← Set.ncard_univ]
        exact Set.ncard_le_ncard (Set.subset_univ _)

/-- No rank is above the logarithm of the number of elements. -/
theorem Ranked.rank_le {k : ℕ} (h : Ranked parent rank) (hcard : Nat.card V ≤ 2 ^ k) (x : V) :
    rank x ≤ k :=
  (Nat.pow_le_pow_iff_right (by decide)).mp ((h.two_pow_le x).trans hcard)

/-- The tree of a root has the root. -/
theorem one_le_tree (hroot : parent r = r) : 1 ≤ {x | RootOf parent x r}.ncard :=
  (Set.ncard_pos).mpr ⟨r, .root hroot⟩

/-- Elements that are all roots have rank zero. -/
theorem ranked_roots (hparent : ∀ x, parent x = x) (hrank : ∀ x, rank x = 0) :
    Ranked parent rank := by
  refine ⟨fun x hmoves => absurd (hparent x) hmoves, fun r hr => ?_⟩
  rw [hrank, Nat.pow_zero]
  exact one_le_tree hr

section Update

variable [DecidableEq V]

/-- Pointing an element to its root keeps the ranks. -/
theorem Ranked.compress (h : Ranked parent rank) (hroot : RootOf parent x r) :
    Ranked (Function.update parent x r) rank := by
  have hkept := kept_compress hroot
  refine ⟨fun y hmoves => ?_, fun s hs => ?_⟩
  · by_cases hy : y = x
    · subst hy
      rw [Function.update_self] at hmoves ⊢
      exact h.rank_lt_root hroot hmoves
    · rw [Function.update_of_ne hy] at hmoves ⊢
      exact h.rank_lt y hmoves
  · -- the roots are the old ones, and their trees keep their elements
    have hold : parent s = s := by
      by_cases hsx : s = x
      · subst hsx
        rw [Function.update_self] at hs
        exact hs ▸ hroot.isRoot
      · rwa [Function.update_of_ne hsx] at hs
    exact (h.size s hold).trans (Set.ncard_le_ncard fun y hy => hkept y s hy)

/-- Linking a root below one of no lower rank keeps the ranks. -/
theorem Ranked.link (h : Ranked parent rank) {a b : V} (ha : parent a = a) (hb : parent b = b)
    (hne : a ≠ b) (hle : rank b ≤ rank a) :
    Ranked (Function.update parent b a) (linkedRank rank a b) := by
  have hmoved : ∀ y s, RootOf parent y s →
      RootOf (Function.update parent b a) y (if s = b then a else s) :=
    fun y s hy => hy.link ha hb hne
  refine ⟨fun y hmoves => ?_, fun s hs => ?_⟩
  · by_cases hy : y = b
    · subst hy
      rw [Function.update_self, linkedRank_of_ne hne.symm]
      exact lt_linkedRank hle
    · rw [Function.update_of_ne hy] at hmoves ⊢
      have hya : y ≠ a := fun heq => hmoves (heq.symm ▸ ha)
      rw [linkedRank_of_ne hya]
      exact (h.rank_lt y hmoves).trans_le (le_linkedRank rank a b _)
  · have hsb : s ≠ b := fun heq => by
      rw [heq, Function.update_self] at hs
      exact hne hs
    rw [Function.update_of_ne hsb] at hs
    by_cases hsa : s = a
    · subst hsa
      -- the tree of the upper root takes in that of the lower one
      have hdisjoint : Disjoint {y | RootOf parent y s} {y | RootOf parent y b} :=
        Set.disjoint_left.mpr fun y hy hyb => hne (hy.unique hyb)
      calc 2 ^ linkedRank rank s b s
          ≤ 2 ^ rank s + 2 ^ rank b := two_pow_linkedRank_le
        _ ≤ {y | RootOf parent y s}.ncard + {y | RootOf parent y b}.ncard :=
            Nat.add_le_add (h.size s ha) (h.size b hb)
        _ = ({y | RootOf parent y s} ∪ {y | RootOf parent y b}).ncard :=
            (Set.ncard_union_eq hdisjoint).symm
        _ ≤ {y | RootOf (Function.update parent b s) y s}.ncard := by
            refine Set.ncard_le_ncard fun y hy => ?_
            rcases hy with hy | hy
            · have hmove := hmoved y s hy
              rwa [if_neg hsb] at hmove
            · have hmove := hmoved y b hy
              rwa [if_pos rfl] at hmove
    · rw [linkedRank_of_ne hsa]
      refine (h.size s hs).trans (Set.ncard_le_ncard fun y hy => ?_)
      have hmove := hmoved y s hy
      rwa [if_neg hsb] at hmove

end Update

/-- Pointing the elements of whole sets to themselves, with rank zero, keeps the ranks. -/
theorem Ranked.reset {R : Set V} [DecidablePred (· ∈ R)] (h : Ranked parent rank)
    (hclosed : ∀ x, x ∈ R ↔ parent x ∈ R) :
    Ranked (fun v => if v ∈ R then v else parent v) fun v => if v ∈ R then 0 else rank v := by
  refine ⟨fun x hmoves => ?_, fun r hr => ?_⟩
  · by_cases hx : x ∈ R
    · exact absurd (if_pos hx) hmoves
    · have hparent : parent x ∉ R := fun hin => hx ((hclosed x).mpr hin)
      simp only [if_neg hx] at hmoves ⊢
      rw [if_neg hparent]
      exact h.rank_lt x hmoves
  · by_cases hrR : r ∈ R
    · rw [if_pos hrR, Nat.pow_zero]
      exact one_le_tree hr
    · simp only [if_neg hrR] at hr
      rw [if_neg hrR]
      -- a tree whose root is outside of the sets is not touched
      refine (h.size r hr).trans (Set.ncard_le_ncard fun y hy => ?_)
      have hyR : y ∉ R := fun hin => hrR ((RootOf.mem_iff hclosed hy).mp hin)
      have hmove := RootOf.reset hclosed hy
      rwa [if_neg hyR] at hmove

end Finite

end DisjointSets
