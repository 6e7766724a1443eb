import Mathlib
import VeloGraphX.Types
import VeloGraphX.Lib.VariableByte

/-!
# Compressed adjacency: deltas and variable-byte groups

A sorted row is stored as its first id and the differences to the id before, each as a group of
seven-bit digits. The decoder of a group stops after five bytes, but 35 bits arrive in the 32 bits
of its value.
-/

namespace VeloGraphX

open VariableByte

/-- A block size of at least one is positive as a number and not zero. -/
theorem toNat_pos_and_ne_zero {blockSize : UInt64} (h : 1 ≤ blockSize) :
    0 < blockSize.toNat ∧ blockSize ≠ 0 := by
  have hpos : 0 < blockSize.toNat := UInt64.le_iff_toNat_le.mp h
  refine ⟨hpos, ?_⟩
  rintro rfl
  exact absurd hpos (by simp)

namespace CompressedAdjacency

/-- The loop of `delta_encode` from its second turn on. -/
def deltaEncodeAfter (prev : UInt32) : List UInt32 → Except Exception (List UInt32)
  | [] => .ok []
  | id :: rest =>
    if id < prev then .error (.invalidArgument "adjacency must be sorted")
    else (deltaEncodeAfter id rest).map fun out => (id - prev) :: out

/-- `delta_encode`. -/
def deltaEncode : List UInt32 → Except Exception (List UInt32)
  | [] => .ok []
  | id :: rest => (deltaEncodeAfter id rest).map fun out => id :: out

/-- The loop of `delta_decode` from its second turn on. -/
def deltaDecodeAfter (value : UInt32) : List UInt32 → Except Exception (List UInt32)
  | [] => .ok []
  | delta :: rest =>
    if 0xFFFFFFFF - value < delta then .error (.overflowError "delta decode overflow")
    else (deltaDecodeAfter (value + delta) rest).map fun out => (value + delta) :: out

/-- `delta_decode`. -/
def deltaDecode : List UInt32 → Except Exception (List UInt32)
  | [] => .ok []
  | delta :: rest => (deltaDecodeAfter delta rest).map fun out => delta :: out

/-- The high digits are fewer. -/
theorem toNat_shiftRight_seven (value : UInt32) : (value >>> 7).toNat = value.toNat / 128 := by
  rw [UInt32.toNat_shiftRight]
  simp [Nat.shiftRight_eq_div_pow]

/-- `variable_byte_encode_uint32`. -/
def variableByteEncodeUint32 (value : UInt32) (out : List UInt8) : List UInt8 :=
  if 0x80 ≤ value then
    variableByteEncodeUint32 (value >>> 7) (out ++ [((value &&& 0x7F) ||| 0x80).toUInt8])
  else out ++ [value.toUInt8]
termination_by value.toNat
decreasing_by
  have hle : (0x80 : UInt32).toNat ≤ value.toNat := UInt32.le_iff_toNat_le.mp ‹_›
  have hpos : 128 ≤ value.toNat := hle
  rw [toNat_shiftRight_seven]
  omega

/-- The loop of `variable_byte_decode_uint32` over the bytes from `offset` on. -/
def decodeBytes (offset : ℕ) (value : UInt32) (shift : ℕ) :
    List UInt8 → Except Exception (UInt32 × ℕ)
  | [] => .error (.invalidArgument "truncated varbyte stream")
  | byte :: rest =>
    let offset := offset + 1
    if 32 ≤ shift ∧ byte &&& 0x7F ≠ 0 then .error (.overflowError "varbyte decode overflow")
    else
      let value := value ||| ((byte &&& 0x7F).toUInt32 <<< UInt32.ofNat shift)
      if byte &&& 0x80 = 0 then .ok (value, offset)
      else
        let shift := shift + 7
        if 28 < shift then .error (.overflowError "invalid varbyte uint32")
        else decodeBytes offset value shift rest

/-- `variable_byte_decode_uint32`: the value and the offset behind it. -/
def variableByteDecodeUint32 (data : List UInt8) (offset : ℕ) : Except Exception (UInt32 × ℕ) :=
  decodeBytes offset 0 0 (data.drop offset)

/-- `variable_byte_delta_encode`. -/
def variableByteDeltaEncode (ids : List UInt32) : Except Exception (List UInt8) :=
  (deltaEncode ids).map fun deltas =>
    deltas.foldl (fun out delta => variableByteEncodeUint32 delta out) []

/-- A decoded group has a byte. -/
theorem lt_of_decodeBytes {bytes : List UInt8} {offset shift : ℕ} {value : UInt32}
    {result : UInt32 × ℕ} (h : decodeBytes offset value shift bytes = .ok result) :
    offset < result.2 := by
  induction bytes generalizing offset value shift with
  | nil => exact absurd h (by simp [decodeBytes])
  | cons byte rest ih =>
    simp only [decodeBytes] at h
    split at h
    · exact absurd h (by simp)
    · split at h
      · rw [← Except.ok.inj h]
        exact Nat.lt_succ_self _
      · split at h
        · exact absurd h (by simp)
        · exact (Nat.lt_succ_self _).trans (ih h)

/-- The loop of `variable_byte_delta_decode`. -/
def decodeGroups (data : List UInt8) (offset : ℕ) (deltas : List UInt32) :
    Except Exception (List UInt32) :=
  if _hoffset : offset < data.length then
    match _hdecode : variableByteDecodeUint32 data offset with
    | .error exception => .error exception
    | .ok (delta, next) => decodeGroups data next (deltas ++ [delta])
  else .ok deltas
termination_by data.length - offset
decreasing_by
  have hlt : offset < next := lt_of_decodeBytes _hdecode
  omega

/-- `variable_byte_delta_decode`. -/
def variableByteDeltaDecode (data : List UInt8) : Except Exception (List UInt32) :=
  match decodeGroups data 0 [] with
  | .error exception => .error exception
  | .ok deltas => deltaDecode deltas

/-- Adding a difference to what was subtracted. -/
theorem sub_le_limit {prev id : UInt32} (hle : prev ≤ id) : ¬ 0xFFFFFFFF - prev < id - prev := by
  rw [UInt32.lt_iff_toNat_lt, UInt32.toNat_sub_of_le _ _ hle,
    UInt32.toNat_sub_of_le _ _ (UInt32.le_iff_toNat_le.mpr (Nat.le_of_lt_succ prev.toNat_lt))]
  have hlt := id.toNat_lt
  have hlimit : (0xFFFFFFFF : UInt32).toNat = 4294967295 := rfl
  omega

section Groups

variable {byte : UInt8} {bytes group rest : List UInt8} {offset k : ℕ} {value : UInt32}

/-- The digit of a byte. -/
theorem toNat_digit (byte : UInt8) : (byte &&& 0x7F).toUInt32.toNat = byte.toNat % 128 := by
  have hmask : (0x7F : UInt8).toNat = 2 ^ 7 - 1 := rfl
  rw [UInt8.toNat_toUInt32, UInt8.toNat_and, hmask, Nat.and_two_pow_sub_one_eq_mod]

/-- The high bit tells whether another digit follows. -/
theorem highBit_eq_zero : byte &&& 0x80 = 0 ↔ ¬ Continues byte := by
  have hall : ∀ n : Fin 256, UInt8.ofNat n &&& 0x80 = 0 ↔ n.val < 128 := by decide +kernel
  have hbyte := hall ⟨byte.toNat, byte.toNat_lt⟩
  rw [UInt8.ofNat_toNat] at hbyte
  rw [hbyte, Continues, not_le]

/-- One more digit lands above the digits before it; what does not fit is cut off. -/
theorem toNat_orDigit (hk : k ≤ 4) (hvalue : value.toNat < 128 ^ k) :
    (value ||| ((byte &&& 0x7F).toUInt32 <<< UInt32.ofNat (7 * k))).toNat =
      (value.toNat + 128 ^ k * (byte.toNat % 128)) % 2 ^ 32 := by
  have hshift : (UInt32.ofNat (7 * k)).toNat = 7 * k := by
    rw [UInt32.toNat_ofNat', Nat.mod_eq_of_lt (by omega)]
  have hpow : 128 ^ k = 2 ^ (7 * k) := by
    rw [pow_mul]
    norm_num
  have hsplit : (2 : ℕ) ^ 32 = 2 ^ (7 * k) * 2 ^ (32 - 7 * k) := by
    rw [← pow_add]
    congr 1
    omega
  rw [hpow] at hvalue
  rw [UInt32.toNat_or, UInt32.toNat_shiftLeft, toNat_digit, hshift,
    Nat.mod_eq_of_lt (show 7 * k < 32 by omega), Nat.shiftLeft_eq, Nat.mul_comm, hpow, hsplit,
    Nat.mul_mod_mul_left, Nat.or_comm, ← Nat.two_pow_add_eq_or_of_lt hvalue, Nat.add_comm,
    Nat.mod_mul, Nat.add_mul_mod_self_left, Nat.mod_eq_of_lt hvalue, Nat.add_mul_div_left _ _
      (Nat.two_pow_pos _), Nat.div_eq_of_lt hvalue, Nat.zero_add]

/-- A group of at most five bytes is decoded, in 32 bits. -/
theorem decodeBytes_group (hgroup : IsGroup group) (hlength : k + group.length ≤ 5)
    (hvalue : value.toNat < 128 ^ k) :
    decodeBytes offset value (7 * k) (group ++ rest) =
      .ok (UInt32.ofNat (value.toNat + 128 ^ k * groupValue group), offset + group.length) := by
  induction group generalizing offset value k with
  | nil => exact absurd hgroup id
  | cons byte tail ih =>
    rw [List.length_cons] at hlength
    have hstep := @toNat_orDigit byte k value (by omega) hvalue
    rw [List.cons_append, decodeBytes]
    dsimp only
    rw [if_neg (by omega)]
    rcases IsGroup.cons_iff.mp hgroup with ⟨hends, rfl⟩ | ⟨hgoes, htail⟩
    · rw [if_pos (highBit_eq_zero.mpr hends)]
      refine congrArg (fun v => Except.ok (v, offset + 1)) (UInt32.toNat_inj.mp ?_)
      rw [hstep, UInt32.toNat_ofNat', groupValue_cons, groupValue_nil, Nat.mul_zero, Nat.add_zero]
    · have hpos : 0 < tail.length := List.length_pos_iff.mpr htail.ne_nil
      have hdigit : byte.toNat % 128 < 128 := Nat.mod_lt _ (by norm_num)
      have hnext : value.toNat + 128 ^ k * (byte.toNat % 128) < 128 ^ (k + 1) := by
        calc value.toNat + 128 ^ k * (byte.toNat % 128)
            < 128 ^ k + 128 ^ k * (byte.toNat % 128) := by omega
          _ = 128 ^ k * (byte.toNat % 128 + 1) := by ring
          _ ≤ 128 ^ k * 128 := Nat.mul_le_mul_left _ hdigit
          _ = 128 ^ (k + 1) := (pow_succ 128 k).symm
      have hfits : (128 : ℕ) ^ (k + 1) ≤ 2 ^ 32 :=
        (Nat.pow_le_pow_right (by norm_num) (show k + 1 ≤ 4 by omega)).trans (by norm_num)
      rw [Nat.mod_eq_of_lt (hnext.trans_le hfits)] at hstep
      rw [if_neg (fun hends => highBit_eq_zero.mp hends hgoes), if_neg (by omega),
        ← Nat.mul_succ, ih htail (by omega) (hstep ▸ hnext), hstep, groupValue_cons,
        List.length_cons]
      refine congrArg Except.ok (Prod.ext (congrArg UInt32.ofNat ?_) ?_)
      · rw [Nat.succ_eq_add_one, pow_succ]
        ring
      · omega

/-- What is decoded is a group of at most five bytes. -/
theorem group_of_decodeBytes {result : UInt32 × ℕ} (hk : k ≤ 4)
    (h : decodeBytes offset value (7 * k) bytes = .ok result) :
    ∃ group rest, bytes = group ++ rest ∧ IsGroup group ∧ k + group.length ≤ 5 := by
  induction bytes generalizing offset value k with
  | nil => exact absurd h (by simp [decodeBytes])
  | cons byte tail ih =>
    rw [decodeBytes] at h
    dsimp only at h
    rw [if_neg (by omega)] at h
    by_cases hends : byte &&& 0x80 = 0
    · exact ⟨[byte], tail, rfl, highBit_eq_zero.mp hends, by rw [List.length_singleton]; omega⟩
    · rw [if_neg hends] at h
      by_cases hlast : 28 < 7 * k + 7
      · rw [if_pos hlast] at h
        exact absurd h (by simp)
      · rw [if_neg hlast, ← Nat.mul_succ] at h
        obtain ⟨group, rest, rfl, hgroup, hlength⟩ := ih (by omega) h
        refine ⟨byte :: group, rest, rfl, ?_, ?_⟩
        · exact IsGroup.cons_iff.mpr (Or.inr ⟨not_not.mp fun hnot => hends
            (highBit_eq_zero.mpr hnot), hgroup⟩)
        · rw [List.length_cons]
          omega

/-- A group at the offset is decoded when it has at most five bytes. -/
theorem variableByteDecodeUint32_group {data : List UInt8} (hdata : data.drop offset = group ++ rest)
    (hgroup : IsGroup group) (hlength : group.length ≤ 5) :
    variableByteDecodeUint32 data offset =
      .ok (UInt32.ofNat (groupValue group), offset + group.length) := by
  have hdecode := @decodeBytes_group group rest offset 0 0 hgroup (by omega) (by simp)
  rw [variableByteDecodeUint32, hdata]
  simpa using hdecode

/-- Five bytes of a group, the last of which holds a digit of more than four bits. -/
def TopDigitOverflows (data : List UInt8) (offset : ℕ) : Prop :=
  (∀ i < 4, ∃ byte, data[offset + i]? = some byte ∧ 128 ≤ byte.toNat) ∧
    ∃ byte, data[offset + 4]? = some byte ∧ 16 ≤ byte.toNat ∧ byte.toNat < 128

/-- Such five bytes are a group. -/
theorem TopDigitOverflows.exists_group {data : List UInt8} (h : TopDigitOverflows data offset) :
    ∃ group rest, data.drop offset = group ++ rest ∧ IsGroup group ∧ group.length ≤ 5 := by
  obtain ⟨hgoes, b₄, hget₄, -, hends⟩ := h
  obtain ⟨b₀, hget₀, h₀⟩ := hgoes 0 (by norm_num)
  obtain ⟨b₁, hget₁, h₁⟩ := hgoes 1 (by norm_num)
  obtain ⟨b₂, hget₂, h₂⟩ := hgoes 2 (by norm_num)
  obtain ⟨b₃, hget₃, h₃⟩ := hgoes 3 (by norm_num)
  have hlt := (List.getElem?_eq_some_iff.mp hget₄).1
  refine ⟨[b₀, b₁, b₂, b₃, b₄], data.drop (offset + 5), ?_, ?_, le_rfl⟩
  · refine List.ext_getElem? fun i => ?_
    rw [List.getElem?_drop]
    match i with
    | 0 => exact hget₀
    | 1 => exact hget₁
    | 2 => exact hget₂
    | 3 => exact hget₃
    | 4 => exact hget₄
    | i + 5 =>
      simp only [List.cons_append, List.nil_append, List.getElem?_cons_succ, List.getElem?_drop]
      congr 1
      omega
  · simp only [IsGroup, Continues]
    exact ⟨h₀, h₁, h₂, h₃, not_le.mpr hends⟩

/-- A group of at most five bytes exceeds 32 bits exactly by its fifth digit. -/
theorem two_pow_le_groupValue_iff {data : List UInt8} (hdata : data.drop offset = group ++ rest)
    (hgroup : IsGroup group) (hlength : group.length ≤ 5) :
    2 ^ 32 ≤ groupValue group ↔ TopDigitOverflows data offset := by
  have hget : ∀ i, data[offset + i]? = (group ++ rest)[i]? := fun i => by
    rw [← hdata, List.getElem?_drop]
  simp only [TopDigitOverflows, hget]
  by_cases hfive : group.length = 5
  · match group, hfive with
    | [b₀, b₁, b₂, b₃, b₄], _ =>
      simp only [IsGroup, Continues] at hgroup
      obtain ⟨h₀, h₁, h₂, h₃, h₄⟩ := hgroup
      have hgo : ∀ i < 4, ∃ byte, ([b₀, b₁, b₂, b₃, b₄] ++ rest)[i]? = some byte ∧
          128 ≤ byte.toNat := by
        intro i hi
        interval_cases i
        · exact ⟨b₀, rfl, h₀⟩
        · exact ⟨b₁, rfl, h₁⟩
        · exact ⟨b₂, rfl, h₂⟩
        · exact ⟨b₃, rfl, h₃⟩
      rw [and_iff_right hgo]
      simp only [groupValue_cons, groupValue_nil, List.cons_append, List.getElem?_cons_succ,
        List.getElem?_cons_zero, Option.some.injEq, exists_eq_left']
      omega
  · have hshort : groupValue group < 128 ^ 4 := by
      refine (groupValue_lt group).trans_le (Nat.pow_le_pow_right (by norm_num) ?_)
      omega
    refine iff_of_false (by omega) fun hoverflows => ?_
    -- the last byte of the group is among the first four bytes, and does not continue
    obtain ⟨last, hlast, hends⟩ := hgroup.exists_last
    have hpos : 0 < group.length := List.length_pos_iff.mpr hgroup.ne_nil
    obtain ⟨byte, hbyte, hgoes⟩ := hoverflows.1 (group.length - 1) (by omega)
    rw [List.getElem?_append_left (by omega), hlast, Option.some.injEq] at hbyte
    exact hends (hbyte ▸ hgoes)

/-- A decoded value is the number of the bytes that were consumed, and larger numbers are
rejected. -/
def DecodesRight (data : List UInt8) (offset : ℕ) : Prop :=
  (∀ value next, variableByteDecodeUint32 data offset = .ok (value, next) →
      value.toNat = groupValue ((data.drop offset).take (next - offset))) ∧
    ∀ group rest, data.drop offset = group ++ rest → IsGroup group → 2 ^ 32 ≤ groupValue group →
      ∃ exception, variableByteDecodeUint32 data offset = .error exception

/-- A decoder of 32-bit values is right exactly where no fifth digit has more than four bits. -/
theorem decodes_right_iff (data : List UInt8) (offset : ℕ) :
    DecodesRight data offset ↔ ¬ TopDigitOverflows data offset := by
  constructor
  · intro hright hoverflows
    obtain ⟨group, rest, hdata, hgroup, hlength⟩ := hoverflows.exists_group
    have hlarge := (two_pow_le_groupValue_iff hdata hgroup hlength).mpr hoverflows
    obtain ⟨exception, herror⟩ := hright.2 group rest hdata hgroup hlarge
    rw [variableByteDecodeUint32_group hdata hgroup hlength] at herror
    exact absurd herror (by simp)
  · intro hfits
    have hdecoded : ∀ value next, variableByteDecodeUint32 data offset = .ok (value, next) →
        ∃ group rest, data.drop offset = group ++ rest ∧ IsGroup group ∧
          groupValue group < 2 ^ 32 ∧ value = UInt32.ofNat (groupValue group) ∧
          next = offset + group.length := fun value next hok => by
      obtain ⟨group, rest, hdata, hgroup, hlength⟩ :=
        group_of_decodeBytes (k := 0) (by norm_num) hok
      have hsmall := mt (two_pow_le_groupValue_iff hdata hgroup (by omega)).mp hfits
      rw [variableByteDecodeUint32_group hdata hgroup (by omega), Except.ok.injEq,
        Prod.mk.injEq] at hok
      exact ⟨group, rest, hdata, hgroup, not_le.mp hsmall, hok.1.symm, hok.2.symm⟩
    refine ⟨fun value next hok => ?_, fun group rest hdata hgroup hlarge => ?_⟩
    · obtain ⟨group, rest, hdata, -, hsmall, rfl, rfl⟩ := hdecoded value next hok
      rw [hdata, Nat.add_sub_cancel_left, List.take_left, UInt32.toNat_ofNat',
        Nat.mod_eq_of_lt hsmall]
    · cases hdecode : variableByteDecodeUint32 data offset with
      | error exception => exact ⟨exception, rfl⟩
      | ok result =>
        obtain ⟨group', rest', hdata', hgroup', hsmall, -⟩ := hdecoded result.1 result.2 hdecode
        rw [hgroup.append_inj hgroup' (hdata.symm.trans hdata')] at hlarge
        exact absurd hlarge (not_le.mpr hsmall)

/-- The five bytes of `2 ^ 32` are decoded to zero. -/
theorem not_decodes_right : ¬ ∀ data offset, DecodesRight data offset := by
  intro h
  have hright := (h [0x80, 0x80, 0x80, 0x80, 0x10] 0).1 0 5 (by decide +kernel)
  exact absurd hright (by decide +kernel)

end Groups

end CompressedAdjacency

end VeloGraphX
