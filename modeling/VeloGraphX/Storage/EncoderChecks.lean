import Mathlib
import VeloGraphX.Storage.BlockedAdjacency
import VeloGraphX.Storage.FixedWidthRoundTrip

/-!
# Where the encoders look for a descent

The delta coder compares every id with the one before it, and the fixed-width encoder checks the
whole row first. The blocked encoder hands each block to the delta coder on its own, so a descent
from the last id of a block to the first of the next one is compared by nobody.
-/

namespace VeloGraphX

open FuelLoop FixedWidth

namespace CompressedAdjacency

/-- An encoder's answer to a row: it accepts an ascending one and throws `std::invalid_argument` on
every other. -/
structure ChecksOrder {α : Type} (ids : List UInt32) (result : Except Exception α) : Prop where
  accepts : ids.Pairwise (· ≤ ·) → ∃ encoded, result = .ok encoded
  rejects : ¬ ids.Pairwise (· ≤ ·) → ∃ what, result = .error (.invalidArgument what)

/-- The three encoders accept the same rows: the ascending ones. -/
def EncodersAgree (ids : List UInt32) (blockSize : UInt64) : Prop :=
  ChecksOrder ids (variableByteDeltaEncode ids) ∧
    Returns (fun fuel => blockedVariableByteEncode fuel ids blockSize) (ChecksOrder ids) ∧
    Returns (fun fuel => simdFriendlyDeltaEncode fuel ids blockSize) (ChecksOrder ids)

/-- Two neighbours of one block that descend. -/
def InnerDescent (ids : List UInt32) (blockSize : ℕ) : Prop :=
  ∃ i, ∃ h : i + 1 < ids.length, ids[i + 1] < ids[i] ∧ (i + 1) % blockSize ≠ 0

variable {ids block : List UInt32} {blockSize : UInt64} {first last done : ℕ}

/-- A row ascends when no neighbours descend. -/
theorem pairwise_iff_neighbours :
    ids.Pairwise (· ≤ ·) ↔ ∀ i, ∀ h : i + 1 < ids.length, ids[i] ≤ ids[i + 1] := by
  rw [← List.isChain_iff_pairwise, List.isChain_iff_getElem]

/-- A descent inside a block is a descent of the row. -/
theorem InnerDescent.not_pairwise {width : ℕ} (h : InnerDescent ids width) :
    ¬ ids.Pairwise (· ≤ ·) := by
  obtain ⟨i, hi, hdescent, -⟩ := h
  rw [pairwise_iff_neighbours]
  exact fun hsorted => UInt32.not_le.mpr hdescent (hsorted i hi)

section DeltaCoder

/-- The delta coder finds the first descent. -/
theorem checksOrder_deltaEncodeAfter (prev : UInt32) (ids : List UInt32) :
    ChecksOrder (prev :: ids) (deltaEncodeAfter prev ids) := by
  refine ⟨fun hsorted => ?_, fun hdescent => ?_⟩
  · obtain ⟨deltas, hencode, -⟩ := deltaDecodeAfter_encode hsorted
    exact ⟨deltas, hencode⟩
  · induction ids generalizing prev with
    | nil => exact absurd (List.pairwise_singleton _ _) hdescent
    | cons id rest ih =>
      by_cases hlt : id < prev
      · exact ⟨_, by rw [deltaEncodeAfter, if_pos hlt]⟩
      · have hrest : ¬ (id :: rest).Pairwise (· ≤ ·) := fun hsorted => hdescent <| by
          refine List.pairwise_cons.mpr ⟨fun next hnext => ?_, hsorted⟩
          have hle : prev ≤ id := UInt32.not_lt.mp hlt
          rcases List.mem_cons.mp hnext with rfl | hmem
          · exact hle
          · exact UInt32.le_trans hle (List.rel_of_pairwise_cons hsorted hmem)
        obtain ⟨what, hthrow⟩ := ih id hrest
        refine ⟨what, ?_⟩
        rw [deltaEncodeAfter, if_neg hlt, hthrow]
        rfl

/-- Post-processing keeps the answer. -/
theorem ChecksOrder.map {α β : Type} {result : Except Exception α} (f : α → β)
    (h : ChecksOrder ids result) : ChecksOrder ids (result.map f) := by
  refine ⟨fun hsorted => ?_, fun hdescent => ?_⟩
  · obtain ⟨encoded, hresult⟩ := h.accepts hsorted
    exact ⟨f encoded, by rw [hresult]; rfl⟩
  · obtain ⟨what, hresult⟩ := h.rejects hdescent
    exact ⟨what, by rw [hresult]; rfl⟩

/-- The variable-byte encoder compares all neighbours. -/
theorem checksOrder_variableByte (ids : List UInt32) :
    ChecksOrder ids (variableByteDeltaEncode ids) := by
  refine ChecksOrder.map _ ?_
  cases ids with
  | nil => exact ⟨fun _ => ⟨[], rfl⟩, fun hdescent => absurd List.Pairwise.nil hdescent⟩
  | cons id rest => exact (checksOrder_deltaEncodeAfter id rest).map _

end DeltaCoder

section Blocked

/-- The neighbours in a block of the row. -/
theorem pairwise_block_iff (hlast : last ≤ ids.length) :
    ((ids.take last).drop first).Pairwise (· ≤ ·) ↔
      ∀ i, first ≤ i → ∀ h : i + 1 < last, ids[i] ≤ ids[i + 1] := by
  rw [pairwise_iff_neighbours]
  constructor
  · intro hblock i hfirst hi
    have hpair := hblock (i - first) (by simp; omega)
    simp only [List.getElem_drop, List.getElem_take, show first + (i - first) = i by omega,
      show first + (i - first + 1) = i + 1 by omega] at hpair
    exact hpair
  · intro hpairs i hi
    rw [List.length_drop, List.length_take] at hi
    simp only [List.getElem_drop, List.getElem_take, ← Nat.add_assoc]
    exact hpairs (first + i) (Nat.le_add_right _ _) (by omega)

/-- No block starts between two neighbours of one block. -/
theorem mod_ne_zero_of_inside {width first i : ℕ} (hfirst : width ∣ first) (hle : first ≤ i)
    (hlt : i + 1 < first + width) : (i + 1) % width ≠ 0 := by
  obtain ⟨k, rfl⟩ := hfirst
  intro hboundary
  obtain ⟨m, hm⟩ := Nat.dvd_of_mod_eq_zero hboundary
  have hlow : k < m := by
    by_contra hge
    have hmul := Nat.mul_le_mul_left width (not_lt.mp hge)
    omega
  have hhigh := Nat.mul_le_mul_left width hlow
  rw [Nat.succ_eq_add_one, Nat.mul_add, Nat.mul_one] at hhigh
  omega

/-- The blocks so far are whole and ascend. -/
structure BlocksAscend (ids : List UInt32) (width done : ℕ) : Prop where
  start : done = ids.length ∨ width ∣ done
  ascends : ∀ i, i + 1 < done → ∀ h : i + 1 < ids.length, (i + 1) % width ≠ 0 → ids[i] ≤ ids[i + 1]

/-- One more block: it ascends, or it holds a descent and the delta coder throws. -/
theorem BlocksAscend.encodeBlock {result : BlockedAdjacency}
    (h : BlocksAscend ids blockSize.toNat first) (hlt : first < ids.length)
    (hnowrap : addU64 first blockSize.toNat = first + blockSize.toNat) :
    (∃ result', encodeBlock ids blockSize first result = .ok result' ∧
        BlocksAscend ids blockSize.toNat (min ids.length (first + blockSize.toNat))) ∨
      ∃ e, encodeBlock ids blockSize first result = .error e ∧
        (∃ what, e = .invalidArgument what) ∧ InnerDescent ids blockSize.toNat := by
  have hlast : (if first + blockSize.toNat < ids.length then first + blockSize.toNat
      else ids.length) = min ids.length (first + blockSize.toNat) := by
    split <;> omega
  have hfirst : blockSize.toNat ∣ first := h.start.resolve_left hlt.ne
  unfold CompressedAdjacency.encodeBlock
  rw [hnowrap]
  dsimp only
  rw [hlast]
  have hcheck := checksOrder_variableByte
    ((ids.take (min ids.length (first + blockSize.toNat))).drop first)
  by_cases hblock :
      ((ids.take (min ids.length (first + blockSize.toNat))).drop first).Pairwise (· ≤ ·)
  · obtain ⟨bytes, hencode⟩ := hcheck.accepts hblock
    rw [pairwise_block_iff (min_le_left _ _)] at hblock
    refine Or.inl ⟨_, by rw [hencode]; rfl, ?_, fun i hi hlength hinner => ?_⟩
    · rcases le_total ids.length (first + blockSize.toNat) with hle | hle
      · exact Or.inl (min_eq_left hle)
      · rw [min_eq_right hle]
        exact Or.inr (hfirst.add (dvd_refl _))
    · rcases Nat.lt_or_ge i first with hbefore | hinside
      · have hne : i + 1 ≠ first := by
          rintro rfl
          exact hinner (Nat.mod_eq_zero_of_dvd hfirst)
        exact h.ascends i (by omega) hlength hinner
      · exact hblock i hinside hi
  · obtain ⟨what, hthrow⟩ := hcheck.rejects hblock
    rw [pairwise_block_iff (min_le_left _ _)] at hblock
    push Not at hblock
    obtain ⟨i, hinside, hi, hdescent⟩ := hblock
    exact Or.inr ⟨_, by rw [hthrow]; rfl, ⟨what, rfl⟩, i, by omega, UInt32.not_le.mp hdescent,
      mod_ne_zero_of_inside hfirst hinside (by omega)⟩

/-- The blocked encoder accepts the rows whose blocks ascend, and throws on every other. -/
theorem blocked_returns (hcapacity : ids.length < 2 ^ 61) (hblockSize : 1 ≤ blockSize) :
    Returns (fun fuel => blockedVariableByteEncode fuel ids blockSize) fun result =>
      (∃ encoded, result = .ok encoded ∧ ¬ InnerDescent ids blockSize.toNat) ∨
        ∃ what, result = .error (.invalidArgument what) ∧ InnerDescent ids blockSize.toNat := by
  obtain ⟨hpos, hne⟩ := toNat_pos_and_ne_zero hblockSize
  unfold blockedVariableByteEncode
  simp only [if_neg hne]
  refine (returns_blockLoop_or_throws (by omega) hpos blockSize.toNat_lt
    (fun done _ => BlocksAscend ids blockSize.toNat done)
    (fun e => (∃ what, e = .invalidArgument what) ∧ InnerDescent ids blockSize.toNat)
    (fun first s hlt hfits hinv => hinv.encodeBlock hlt (Nat.mod_eq_of_lt hfits))
    ⟨Or.inr (dvd_zero _), fun i hi => absurd hi (by omega)⟩).mono fun result hresult => ?_
  rcases hresult with ⟨encoded, rfl, hblocks⟩ | ⟨e, rfl, ⟨what, rfl⟩, hdescent⟩
  · refine Or.inl ⟨encoded, rfl, ?_⟩
    rintro ⟨i, hi, hdescent, hinner⟩
    exact UInt32.not_le.mpr hdescent (hblocks.ascends i hi hi hinner)
  · exact Or.inr ⟨what, rfl, hdescent⟩

end Blocked

section FixedWidthEncoder

/-- `std::is_sorted` compares all neighbours. -/
theorem isSorted_iff : isSorted ids = true ↔ ids.Pairwise (· ≤ ·) := by
  refine ⟨fun hsorted => ?_, isSorted_of_pairwise⟩
  induction ids with
  | nil => exact List.Pairwise.nil
  | cons id rest ih =>
    cases rest with
    | nil => exact List.pairwise_singleton _ _
    | cons next rest =>
      rw [isSorted, Bool.and_eq_true, Bool.not_eq_true', decide_eq_false_iff_not,
        UInt32.not_lt] at hsorted
      have htail := ih hsorted.2
      refine List.pairwise_cons.mpr ⟨fun id' hid' => ?_, htail⟩
      rcases List.mem_cons.mp hid' with rfl | hmem
      · exact hsorted.1
      · exact UInt32.le_trans hsorted.1 (List.rel_of_pairwise_cons htail hmem)

/-- The fixed-width encoder checks the whole row first. -/
theorem simdFriendly_checksOrder (hcapacity : ids.length < 2 ^ 61) (hblockSize : 1 ≤ blockSize) :
    Returns (fun fuel => simdFriendlyDeltaEncode fuel ids blockSize) (ChecksOrder ids) := by
  by_cases hsorted : ids.Pairwise (· ≤ ·)
  · refine (simdFriendly_round_trip hsorted hcapacity hblockSize).mono fun result hresult => ?_
    obtain ⟨encoded, rfl, -⟩ := hresult
    exact ⟨fun _ => ⟨encoded, rfl⟩, fun hdescent => absurd hsorted hdescent⟩
  · have hne : blockSize ≠ 0 := by
      rintro rfl
      exact absurd (UInt64.le_iff_toNat_le.mp hblockSize) (by simp)
    have hcheck : isSorted ids = false := by
      rw [← Bool.not_eq_true, isSorted_iff]
      exact hsorted
    unfold simdFriendlyDeltaEncode
    simp only [if_neg hne, if_pos hcheck]
    exact Returns.pure ⟨fun h => absurd h hsorted, fun _ => ⟨_, rfl⟩⟩

end FixedWidthEncoder

/-- The encoders accept the same rows exactly where the row ascends or some descent lies inside a
block. -/
theorem encoders_agree_iff (ids : List UInt32) (hcapacity : ids.length < 2 ^ 61)
    (blockSize : UInt64) (hblockSize : 1 ≤ blockSize) :
    EncodersAgree ids blockSize ↔
      ids.Pairwise (· ≤ ·) ∨ InnerDescent ids blockSize.toNat := by
  have hblocked := blocked_returns hcapacity hblockSize
  constructor
  · rintro ⟨-, hchecks, -⟩
    obtain ⟨result, ⟨hchecks, hresult⟩, -⟩ := hchecks.and hblocked
    by_cases hsorted : ids.Pairwise (· ≤ ·)
    · exact Or.inl hsorted
    · obtain ⟨what, rfl⟩ := hchecks.rejects hsorted
      rcases hresult with ⟨encoded, hok, -⟩ | ⟨-, -, hdescent⟩
      · exact absurd hok (by simp)
      · exact Or.inr hdescent
  · intro hcases
    refine ⟨checksOrder_variableByte ids, hblocked.mono fun result hresult => ?_,
      simdFriendly_checksOrder hcapacity hblockSize⟩
    rcases hresult with ⟨encoded, rfl, hnone⟩ | ⟨what, rfl, hdescent⟩
    · exact ⟨fun _ => ⟨encoded, rfl⟩, fun hdescent =>
        absurd (hcases.resolve_right hnone) hdescent⟩
    · exact ⟨fun hsorted => absurd hsorted hdescent.not_pairwise, fun _ => ⟨what, rfl⟩⟩

/-- A descent inside a block is rejected by all. -/
theorem encoders_agree_iff_inner : EncodersAgree [5, 4] 4 :=
  (encoders_agree_iff [5, 4] (by decide) 4 (by decide)).mpr (Or.inr ⟨0, by decide, by decide⟩)

/-- A descent from one block to the next is accepted by the blocked encoder. -/
theorem not_encoders_agree :
    ¬ ∀ (ids : List UInt32) (blockSize : UInt64), 1 ≤ blockSize → EncodersAgree ids blockSize := by
  intro h
  obtain ⟨-, hchecks, -⟩ := h [5, 1] 1 (by decide)
  have hblocked := @blocked_returns [5, 1] 1 (by decide) (by decide)
  obtain ⟨result, ⟨hchecks, hresult⟩, -⟩ := hchecks.and hblocked
  obtain ⟨what, rfl⟩ := hchecks.rejects (by decide)
  rcases hresult with ⟨encoded, hok, -⟩ | ⟨-, -, i, -, -, hinner⟩
  · exact absurd hok (by simp)
  · exact hinner (Nat.mod_one (i + 1))

end CompressedAdjacency

end VeloGraphX
