import Mathlib

/-!
# Self-delimiting groups of seven bits

A natural number is written in base 128, the least significant digit first, one digit a byte; the
high bit of a byte tells that another digit follows. A stream starts with at most one such group.
-/

namespace VariableByte

/-- The number of a group. -/
def groupValue (bytes : List UInt8) : ℕ := Nat.ofDigits 128 (bytes.map fun b => b.toNat % 128)

/-- A byte that another digit follows. -/
def Continues (byte : UInt8) : Prop := 128 ≤ byte.toNat

/-- The bytes of a group: all but the last one continue. -/
def IsGroup : List UInt8 → Prop
  | [] => False
  | [last] => ¬ Continues last
  | byte :: rest => Continues byte ∧ IsGroup rest

variable {byte : UInt8} {group group' rest rest' : List UInt8}

/-- The lowest digit and the rest. -/
@[simp] theorem groupValue_cons (byte : UInt8) (rest : List UInt8) :
    groupValue (byte :: rest) = byte.toNat % 128 + 128 * groupValue rest := by
  simp [groupValue, Nat.ofDigits_cons]

/-- No digits make zero. -/
@[simp] theorem groupValue_nil : groupValue [] = 0 := rfl

/-- A group has a byte. -/
theorem IsGroup.ne_nil (h : IsGroup group) : group ≠ [] := by
  rintro rfl
  exact h

/-- A byte that does not continue is a group. -/
theorem isGroup_singleton : IsGroup [byte] ↔ ¬ Continues byte := Iff.rfl

/-- A group starts with a byte that ends it or goes on. -/
theorem IsGroup.cons_iff : IsGroup (byte :: rest) ↔
    ¬ Continues byte ∧ rest = [] ∨ Continues byte ∧ IsGroup rest := by
  cases rest with
  | nil => simp [IsGroup]
  | cons b bytes => simp [IsGroup]

/-- The last byte of a group does not continue. -/
theorem IsGroup.exists_last (h : IsGroup group) :
    ∃ last, group[group.length - 1]? = some last ∧ ¬ Continues last := by
  induction group with
  | nil => exact absurd h id
  | cons byte bytes ih =>
    rcases IsGroup.cons_iff.mp h with ⟨hends, rfl⟩ | ⟨-, htail⟩
    · exact ⟨byte, rfl, hends⟩
    · obtain ⟨last, hlast, hends⟩ := ih htail
      have hpos : 0 < bytes.length := List.length_pos_iff.mpr htail.ne_nil
      refine ⟨last, ?_, hends⟩
      rw [List.length_cons, Nat.add_sub_cancel, ← hlast, ← Nat.sub_add_cancel hpos,
        List.getElem?_cons_succ]
      rfl

/-- A stream starts with at most one group. -/
theorem IsGroup.append_inj (h : IsGroup group) (h' : IsGroup group')
    (heq : group ++ rest = group' ++ rest') : group = group' := by
  induction group generalizing group' with
  | nil => exact absurd h id
  | cons byte bytes ih =>
    cases group' with
    | nil => exact absurd h' id
    | cons byte' bytes' =>
      rw [List.cons_append, List.cons_append, List.cons.injEq] at heq
      obtain ⟨rfl, heq⟩ := heq
      rcases IsGroup.cons_iff.mp h with ⟨hends, rfl⟩ | ⟨hgoes, htail⟩
      · rcases IsGroup.cons_iff.mp h' with ⟨-, rfl⟩ | ⟨hgoes, -⟩
        · rfl
        · exact absurd hgoes hends
      · rcases IsGroup.cons_iff.mp h' with ⟨hends, -⟩ | ⟨-, htail'⟩
        · exact absurd hgoes hends
        · rw [ih htail htail' heq]

/-- A group of so many digits is below the power of the base. -/
theorem groupValue_lt (bytes : List UInt8) : groupValue bytes < 128 ^ bytes.length := by
  induction bytes with
  | nil => simp
  | cons byte rest ih =>
    have hdigit : byte.toNat % 128 < 128 := Nat.mod_lt _ (by norm_num)
    rw [groupValue_cons, List.length_cons, pow_succ']
    omega

end VariableByte
