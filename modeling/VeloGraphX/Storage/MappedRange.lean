import Mathlib
import VeloGraphX.Storage.PartitionFile

/-!
# The range that is copied out of a mapping

A mapped file is checked against its header before the payload is copied. The sum of the header's
size and the declared number of bytes is taken in 64 bits, so a declaration just below `2 ^ 64`
passes as a small one. Its range is longer than a vector can be, and it is the vector that then
refuses to copy it.
-/

namespace VeloGraphX

open ByteStream

namespace PartitionFile

/-- On the mapped path, which a file without a whole header does not take, a range that passes the
checks lies inside the mapping. -/
def CopiesInside (order : ByteOrder) (bytes : List UInt8) (expectedPartitionId : UInt64) : Prop :=
  kHeaderBytes ≤ bytes.length → ∀ start count,
    mappedRange order bytes expectedPartitionId = .ok (start, count) → start + count ≤ bytes.length

variable {order : ByteOrder} {bytes : List UInt8} {expected : UInt64} {start count : ℕ}

/-- A declared number of bytes is one of 64 bits. -/
theorem payloadBytes_lt : (mappedHeader order bytes).payloadBytes < 2 ^ 64 := by
  refine (loaded_lt order _).trans_le ?_
  calc 256 ^ (((bytes.take kHeaderBytes).drop 16).take 8).length ≤ 256 ^ 8 :=
        Nat.pow_le_pow_right (by norm_num) (by rw [List.length_take]; exact min_le_left _ _)
    _ = 2 ^ 64 := by norm_num

/-- What gets past the checks. -/
theorem mappedRange_eq_ok_iff : mappedRange order bytes expected = .ok (start, count) ↔
    validateHeader (mappedHeader order bytes) expected = .ok () ∧
      addU64 kHeaderBytes (mappedHeader order bytes).payloadBytes ≤ bytes.length ∧
      start = kHeaderBytes ∧ count = (mappedHeader order bytes).payloadBytes := by
  rw [mappedRange]
  cases hvalid : validateHeader (mappedHeader order bytes) expected with
  | error exception => simp
  | ok _ =>
    dsimp only
    by_cases htotal : addU64 kHeaderBytes (mappedHeader order bytes).payloadBytes > bytes.length
    · rw [if_pos htotal]
      simp [not_le.mpr htotal]
    · rw [if_neg htotal]
      simp [not_lt.mp htotal, eq_comm]

/-- The copied range lies inside every mapping of a file, exactly where the header is rejected or
the sum of the header's size and the declared bytes can be held in 64 bits. -/
theorem copies_inside_iff (order : ByteOrder) (bytes : List UInt8) (hsize : bytes.length < 2 ^ 63)
    (expected : UInt64) :
    CopiesInside order bytes expected ↔
      bytes.length < kHeaderBytes ∨
        (∃ exception, validateHeader (mappedHeader order bytes) expected = .error exception) ∨
        kHeaderBytes + (mappedHeader order bytes).payloadBytes < 2 ^ 64 := by
  have hdeclared := @payloadBytes_lt order bytes
  constructor
  · intro hinside
    by_contra hnot
    simp only [not_or, not_exists, not_lt] at hnot
    obtain ⟨hheader, hvalid, hwraps⟩ := hnot
    have hok : validateHeader (mappedHeader order bytes) expected = .ok () := by
      cases hcheck : validateHeader (mappedHeader order bytes) expected with
      | error exception => exact absurd hcheck (hvalid exception)
      | ok _ => rfl
    -- the wrapped sum is less than the header's size
    have htotal : addU64 kHeaderBytes (mappedHeader order bytes).payloadBytes ≤ bytes.length := by
      rw [addU64]
      rw [kHeaderBytes] at hheader hwraps ⊢
      omega
    have hrange := hinside hheader _ _ (mappedRange_eq_ok_iff.mpr ⟨hok, htotal, rfl, rfl⟩)
    omega
  · intro hcases hheader start count hrange
    obtain ⟨hok, htotal, rfl, rfl⟩ := mappedRange_eq_ok_iff.mp hrange
    rcases hcases with hshort | ⟨exception, hrejected⟩ | hfits
    · omega
    · exact absurd (hok.symm.trans hrejected) (by simp)
    · rwa [addU64, Nat.mod_eq_of_lt hfits] at htotal

/-- The mapping of a written file. -/
theorem copies_inside_iff_written : CopiesInside .little (write .little 7 [1, 2]) 7 :=
  (copies_inside_iff .little (write .little 7 [1, 2]) (by decide +kernel) 7).mpr
    (Or.inr (Or.inr (by decide +kernel)))

/-- A header alone that declares `2 ^ 64 - 1` bytes passes the check. -/
theorem not_copies_inside :
    ¬ ∀ (order : ByteOrder) (bytes : List UInt8) (expected : UInt64),
      bytes.length < 2 ^ 63 → CopiesInside order bytes expected := by
  intro h
  have hinside := h .little
    (PartitionFileHeader.memory .little { partitionId := 7, payloadBytes := 2 ^ 64 - 1 }) 7
    (by decide +kernel) (by decide +kernel) 24 (2 ^ 64 - 1) (by decide +kernel)
  exact absurd hinside (by decide +kernel)

end PartitionFile

end VeloGraphX
