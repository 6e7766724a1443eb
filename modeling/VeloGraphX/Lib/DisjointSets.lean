import Mathlib

/-!
# Disjoint sets as a forest of parent pointers

Every element points to a parent, and a root to itself. The sets are the elements with one
root. Compressing a path changes no root, linking two roots merges their sets, and pointing the
elements of whole sets to themselves splits those sets into single elements.
-/

namespace DisjointSets

variable {V : Type*} {parent parent' : V → V} {x y z r s : V} {E : V → V → Prop}

/-- `RootOf parent x r`: following the parents from `x` ends at the root `r`. -/
inductive RootOf (parent : V → V) : V → V → Prop
  | root {x : V} : parent x = x → RootOf parent x x
  | step {x r : V} : parent x ≠ x → RootOf parent (parent x) r → RootOf parent x r

/-- An element has one root. -/
theorem RootOf.unique (h : RootOf parent x r) (h' : RootOf parent x s) : r = s := by
  induction h with
  | root hroot =>
    cases h' with
    | root _ => rfl
    | step hne _ => exact absurd hroot hne
  | step hne _ ih =>
    cases h' with
    | root hroot => exact absurd hroot hne
    | step _ hrest => exact ih hrest

/-- A root is its own parent. -/
theorem RootOf.isRoot (h : RootOf parent x r) : parent r = r := by
  induction h with
  | root hroot => exact hroot
  | step _ _ ih => exact ih

/-- Every element has a root. -/
def Forest (parent : V → V) : Prop := ∀ x, ∃ r, RootOf parent x r

/-- Two elements have the same root. -/
def Same (parent : V → V) (x y : V) : Prop := ∃ r, RootOf parent x r ∧ RootOf parent y r

/-- In a forest, having the same root is an equivalence. -/
theorem Forest.equivalence (h : Forest parent) : Equivalence (Same parent) := by
  refine ⟨fun x => ?_, fun ⟨r, hx, hy⟩ => ⟨r, hy, hx⟩, fun ⟨r, hx, hy⟩ ⟨s, hy', hz⟩ => ?_⟩
  · obtain ⟨r, hr⟩ := h x
    exact ⟨r, hr, hr⟩
  · exact ⟨r, hx, hy.unique hy' ▸ hz⟩

/-- The roots of one forest are those of another. -/
def Kept (parent parent' : V → V) : Prop := ∀ x r, RootOf parent x r → RootOf parent' x r

theorem Kept.refl (parent : V → V) : Kept parent parent := fun _ _ h => h

theorem Kept.trans {parent'' : V → V} (h : Kept parent parent') (h' : Kept parent' parent'') :
    Kept parent parent'' := fun x r hr => h' x r (h x r hr)

/-- The sets of the forest are the classes of the equivalence generated by a relation. -/
structure Represents (parent : V → V) (E : V → V → Prop) : Prop where
  forest : Forest parent
  same : ∀ x y, Same parent x y ↔ Relation.EqvGen E x y

/-- Where roots are kept, so are the sets. -/
theorem Represents.kept (h : Represents parent E) (hkept : Kept parent parent') :
    Represents parent' E := by
  have hforest : Forest parent' := fun x => by
    obtain ⟨r, hr⟩ := h.forest x
    exact ⟨r, hkept x r hr⟩
  refine ⟨hforest, fun x y => ⟨fun ⟨s, hx, hy⟩ => ?_, fun hxy => ?_⟩⟩
  · obtain ⟨r, hr⟩ := h.forest x
    obtain ⟨r', hr'⟩ := h.forest y
    have hsame : r = r' := ((hkept x r hr).unique hx).trans ((hkept y r' hr').unique hy).symm
    exact (h.same x y).mp ⟨r, hr, hsame ▸ hr'⟩
  · obtain ⟨r, hx, hy⟩ := (h.same x y).mpr hxy
    exact ⟨r, hkept x r hx, hkept y r hy⟩

/-- The sets depend on the relation only through the equivalence it generates. -/
theorem Represents.congr {E' : V → V → Prop} (h : Represents parent E)
    (hle : ∀ x y, E x y → Relation.EqvGen E' x y) (hge : ∀ x y, E' x y → Relation.EqvGen E x y) :
    Represents parent E' := by
  have hmono : ∀ {F F' : V → V → Prop}, (∀ x y, F x y → Relation.EqvGen F' x y) →
      ∀ x y, Relation.EqvGen F x y → Relation.EqvGen F' x y := by
    intro F F' hFF x y hxy
    induction hxy with
    | rel x y hxy => exact hFF x y hxy
    | refl x => exact .refl x
    | symm x y _ ih => exact ih.symm
    | trans x y z _ _ ih ih' => exact ih.trans _ _ _ ih'
  exact ⟨h.forest, fun x y => (h.same x y).trans ⟨hmono hle x y, hmono hge x y⟩⟩

/-- Elements that are all roots are alone in their sets. -/
theorem represents_roots (h : ∀ x, parent x = x) : Represents parent fun _ _ => False := by
  refine ⟨fun x => ⟨x, .root (h x)⟩, fun x y => ⟨fun ⟨r, hx, hy⟩ => ?_, fun hxy => ?_⟩⟩
  · have hxr := hx.unique (.root (h x))
    have hyr := hy.unique (.root (h y))
    exact hxr.symm.trans hyr ▸ .refl x
  · induction hxy with
    | rel x y hxy => exact absurd hxy id
    | refl x => exact ⟨x, .root (h x), .root (h x)⟩
    | symm x y _ ih =>
      obtain ⟨r, hx, hy⟩ := ih
      exact ⟨r, hy, hx⟩
    | trans x y z _ _ ih ih' =>
      obtain ⟨r, hx, hy⟩ := ih
      obtain ⟨s, hy', hz⟩ := ih'
      exact ⟨r, hx, hy.unique hy' ▸ hz⟩

/-- A relation with one more pair. -/
def addPair (E : V → V → Prop) (x y : V) : V → V → Prop := fun u v => E u v ∨ u = x ∧ v = y

/-- An equivalence that contains a relation contains what it generates. -/
theorem eqvGen_le {R : V → V → Prop} (hR : Equivalence R) (hle : ∀ u v, E u v → R u v)
    (h : Relation.EqvGen E x y) : R x y := by
  induction h with
  | rel u v huv => exact hle u v huv
  | refl u => exact hR.refl u
  | symm u v _ ih => exact hR.symm ih
  | trans u v w _ _ ih ih' => exact hR.trans ih ih'

/-- A pair whose elements are in one set adds nothing. -/
theorem Represents.addPair_of_same (h : Represents parent E) (hxy : Same parent x y) :
    Represents parent (addPair E x y) := by
  refine h.congr (fun u v huv => .rel _ _ (Or.inl huv)) fun u v huv => ?_
  rcases huv with huv | ⟨rfl, rfl⟩
  · exact .rel _ _ huv
  · exact (h.same u v).mp hxy

section Update

variable [DecidableEq V]

/-- Pointing an element to its root changes no root. -/
theorem kept_compress (h : RootOf parent x r) : Kept parent (Function.update parent x r) := by
  intro y s hy
  by_cases hx : r = x
  · -- the element is the root: nothing changes
    have hsame : Function.update parent x r = parent := by
      have hroot : parent x = r := by rw [← hx]; exact h.isRoot
      rw [← hroot]
      exact Function.update_eq_self x parent
    rw [hsame]
    exact hy
  · have hroot : Function.update parent x r r = r := by
      rw [Function.update_of_ne hx]
      exact h.isRoot
    induction hy with
    | root hself =>
      rename_i y
      have hy : y ≠ x := fun heq => hx ((h.unique (heq ▸ .root hself)).trans heq)
      refine .root ?_
      rw [Function.update_of_ne hy]
      exact hself
    | step hne hrest ih =>
      rename_i y s
      by_cases hy : y = x
      · have hs : s = r := (RootOf.step hne hrest).unique (hy ▸ h)
        subst hy
        rw [hs]
        refine .step ?_ ?_
        · rw [Function.update_self]
          exact hx
        · rw [Function.update_self]
          exact .root hroot
      · refine .step ?_ ?_
        · rw [Function.update_of_ne hy]
          exact hne
        · rw [Function.update_of_ne hy]
          exact ih

/-- Linking a root below another one moves its set there. -/
theorem RootOf.link {a b : V} (ha : parent a = a) (hb : parent b = b) (hne : a ≠ b)
    (hy : RootOf parent y s) :
    RootOf (Function.update parent b a) y (if s = b then a else s) := by
  have hroot : Function.update parent b a a = a := by
    rw [Function.update_of_ne hne]
    exact ha
  induction hy with
  | root hself =>
    rename_i y
    by_cases hy : y = b
    · subst hy
      rw [if_pos rfl]
      refine .step ?_ ?_
      · rw [Function.update_self]
        exact hne
      · rw [Function.update_self]
        exact .root hroot
    · rw [if_neg hy]
      refine .root ?_
      rw [Function.update_of_ne hy]
      exact hself
  | step hmoves hrest ih =>
    rename_i y s
    have hy : y ≠ b := fun heq => hmoves (by rw [heq]; exact hb)
    refine .step ?_ ?_
    · rw [Function.update_of_ne hy]
      exact hmoves
    · rw [Function.update_of_ne hy]
      exact ih

/-- Linking the roots of two elements adds the pair to the relation. -/
theorem Represents.link (h : Represents parent E) {a b : V} (hx : RootOf parent x a)
    (hy : RootOf parent y b) (hne : a ≠ b) :
    Represents (Function.update parent b a) (addPair E x y) := by
  have hlink : ∀ u r, RootOf parent u r →
      RootOf (Function.update parent b a) u (if r = b then a else r) :=
    fun u r hu => hu.link hx.isRoot hy.isRoot hne
  have hforest : Forest (Function.update parent b a) := fun u => by
    obtain ⟨r, hr⟩ := h.forest u
    exact ⟨_, hlink u r hr⟩
  have hold : ∀ u v, Relation.EqvGen E u v → Relation.EqvGen (addPair E x y) u v :=
    fun u v huv => huv.mono fun _ _ => Or.inl
  have hpair : Relation.EqvGen (addPair E x y) x y := .rel _ _ (Or.inr ⟨rfl, rfl⟩)
  refine ⟨hforest, fun u v => ⟨fun ⟨r, hu, hv⟩ => ?_, fun huv => ?_⟩⟩
  · obtain ⟨s, hs⟩ := h.forest u
    obtain ⟨t, ht⟩ := h.forest v
    have hroots : (if s = b then a else s) = if t = b then a else t :=
      ((hlink u s hs).unique hu).trans ((hlink v t ht).unique hv).symm
    have hto : ∀ w, RootOf parent w b → Relation.EqvGen (addPair E x y) w y := fun w hw =>
      hold w y ((h.same w y).mp ⟨b, hw, hy⟩)
    have hfrom : ∀ w, RootOf parent w a → Relation.EqvGen (addPair E x y) x w := fun w hw =>
      hold x w ((h.same x w).mp ⟨a, hx, hw⟩)
    by_cases hsb : s = b
    · by_cases htb : t = b
      · exact hold u v ((h.same u v).mp ⟨b, hsb ▸ hs, htb ▸ ht⟩)
      · rw [if_pos hsb, if_neg htb] at hroots
        exact ((hto u (hsb ▸ hs)).trans _ _ _ hpair.symm).trans _ _ _ (hfrom v (hroots ▸ ht))
    · by_cases htb : t = b
      · rw [if_neg hsb, if_pos htb] at hroots
        exact ((hfrom u (hroots ▸ hs)).symm.trans _ _ _ hpair).trans _ _ _ (hto v (htb ▸ ht)).symm
      · rw [if_neg hsb, if_neg htb] at hroots
        exact hold u v ((h.same u v).mp ⟨s, hs, hroots ▸ ht⟩)
  · refine eqvGen_le hforest.equivalence (fun p q hpq => ?_) huv
    rcases hpq with hpq | ⟨rfl, rfl⟩
    · obtain ⟨r, hp, hq⟩ := (h.same p q).mpr (.rel _ _ hpq)
      exact ⟨_, hlink p r hp, hlink q r hq⟩
    · have hxa := hlink p a hx
      have hyb := hlink q b hy
      rw [if_neg hne] at hxa
      rw [if_pos rfl] at hyb
      exact ⟨a, hxa, hyb⟩

/-- Linking the other way round. -/
theorem Represents.link' (h : Represents parent E) {a b : V} (hx : RootOf parent x a)
    (hy : RootOf parent y b) (hne : a ≠ b) :
    Represents (Function.update parent a b) (addPair E x y) := by
  have hpair : ∀ p q : V, Relation.EqvGen (addPair E p q) p q := fun p q =>
    .rel _ _ (Or.inr ⟨rfl, rfl⟩)
  refine (h.link hy hx hne.symm).congr (fun u v huv => ?_) fun u v huv => ?_
  · rcases huv with huv | ⟨rfl, rfl⟩
    · exact .rel _ _ (Or.inl huv)
    · exact (hpair v u).symm
  · rcases huv with huv | ⟨rfl, rfl⟩
    · exact .rel _ _ (Or.inl huv)
    · exact (hpair v u).symm

end Update

/-- Pointing the elements of whole sets to themselves. -/
theorem RootOf.reset {R : Set V} [DecidablePred (· ∈ R)] (hclosed : ∀ x, x ∈ R ↔ parent x ∈ R)
    (h : RootOf parent x r) :
    RootOf (fun v => if v ∈ R then v else parent v) x (if x ∈ R then x else r) := by
  induction h with
  | root hself =>
    rename_i x
    rw [ite_self]
    refine .root ?_
    split
    · rfl
    · exact hself
  | step hmoves hrest ih =>
    rename_i x r
    by_cases hx : x ∈ R
    · rw [if_pos hx]
      exact .root (if_pos hx)
    · have hparent : parent x ∉ R := fun hin => hx ((hclosed x).mpr hin)
      rw [if_neg hparent] at ih
      rw [if_neg hx]
      refine .step ?_ ?_
      · rw [if_neg hx]
        exact hmoves
      · rw [if_neg hx]
        exact ih

/-- Whole sets hold an element exactly when they hold its root. -/
theorem RootOf.mem_iff {R : Set V} (hclosed : ∀ x, x ∈ R ↔ parent x ∈ R) (h : RootOf parent x r) :
    x ∈ R ↔ r ∈ R := by
  induction h with
  | root _ => exact Iff.rfl
  | step _ _ ih => exact (hclosed _).trans ih

/-- Splitting whole sets leaves the equivalence outside them. -/
theorem Represents.reset {R : Set V} [DecidablePred (· ∈ R)] (h : Represents parent E)
    (hclosed : ∀ x, x ∈ R ↔ parent x ∈ R) :
    Represents (fun v => if v ∈ R then v else parent v)
      fun x y => Relation.EqvGen E x y ∧ x ∉ R ∧ y ∉ R := by
  have hreset : ∀ u r, RootOf parent u r →
      RootOf (fun v => if v ∈ R then v else parent v) u (if u ∈ R then u else r) :=
    fun u r hu => hu.reset hclosed
  have hforest : Forest fun v => if v ∈ R then v else parent v := fun u => by
    obtain ⟨r, hr⟩ := h.forest u
    exact ⟨_, hreset u r hr⟩
  refine ⟨hforest, fun x y => ⟨fun ⟨r, hx, hy⟩ => ?_, fun hxy => ?_⟩⟩
  · obtain ⟨s, hs⟩ := h.forest x
    obtain ⟨t, ht⟩ := h.forest y
    have hroots := ((hreset x s hs).unique hx).trans ((hreset y t ht).unique hy).symm
    by_cases hxR : x ∈ R
    · by_cases hyR : y ∈ R
      · rw [if_pos hxR, if_pos hyR] at hroots
        exact hroots ▸ .refl x
      · rw [if_pos hxR, if_neg hyR] at hroots
        exact absurd ((ht.mem_iff hclosed).mpr (hroots ▸ hxR)) hyR
    · by_cases hyR : y ∈ R
      · rw [if_neg hxR, if_pos hyR] at hroots
        exact absurd ((hs.mem_iff hclosed).mpr (hroots ▸ hyR)) hxR
      · rw [if_neg hxR, if_neg hyR] at hroots
        exact .rel _ _ ⟨(h.same x y).mp ⟨s, hs, hroots ▸ ht⟩, hxR, hyR⟩
  · refine eqvGen_le hforest.equivalence (fun u v huv => ?_) hxy
    obtain ⟨hE, hu, hv⟩ := huv
    obtain ⟨r, hur, hvr⟩ := (h.same u v).mpr hE
    have hur' := hreset u r hur
    have hvr' := hreset v r hvr
    rw [if_neg hu] at hur'
    rw [if_neg hv] at hvr'
    exact ⟨r, hur', hvr'⟩

end DisjointSets
