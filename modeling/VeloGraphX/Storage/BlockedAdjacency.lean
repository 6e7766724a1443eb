import Mathlib
import VeloGraphX.Lib.BlockLoop
import VeloGraphX.Storage.CompressedAdjacency

/-!
# Compressed adjacency in blocks

Every block of a row starts again with a whole id, and the offsets of the blocks are recorded. The
decoder takes the bytes between two offsets and consumes exactly what the encoder of the block
wrote.
-/

namespace VeloGraphX

open FuelLoop VariableByte

namespace CompressedAdjacency

/-- `BlockedAdjacency`. -/
structure BlockedAdjacency where
  blockSize : UInt64 := 128
  blockOffsets : List ℕ := []
  payload : List UInt8 := []
  valueCount : ℕ := 0
deriving DecidableEq, Repr

/-- One turn of the loop of `blocked_variable_byte_encode`. -/
def encodeBlock (ids : List UInt32) (blockSize : UInt64) (first : ℕ) (result : BlockedAdjacency) :
    Except Exception BlockedAdjacency :=
  let next := addU64 first blockSize.toNat
  let last := if next < ids.length then next else ids.length
  (variableByteDeltaEncode ((ids.take last).drop first)).map fun encoded =>
    let payload := result.payload ++ encoded
    { result with payload := payload, blockOffsets := result.blockOffsets ++ [payload.length] }

/-- `blocked_variable_byte_encode`. -/
def blockedVariableByteEncode (fuel : ℕ) (ids : List UInt32) (blockSize : UInt64) :
    Option (Except Exception BlockedAdjacency) :=
  if blockSize = 0 then some (.error (.invalidArgument "block size must be positive"))
  else blockLoop (2 ^ 64) ids.length blockSize.toNat (encodeBlock ids blockSize) fuel 0
    { blockSize := blockSize, valueCount := ids.length, blockOffsets := [0] }

/-- The loop of `blocked_variable_byte_decode` over neighbouring offsets. -/
def decodeBlocks (payload : List UInt8) : List ℕ → List UInt32 → Except Exception (List UInt32)
  | lower :: upper :: offsets, out =>
    if upper < lower ∨ payload.length < upper then .error (.invalidArgument "invalid block bounds")
    else
      match variableByteDeltaDecode ((payload.take upper).drop lower) with
      | .error exception => .error exception
      | .ok decoded => decodeBlocks payload (upper :: offsets) (out ++ decoded)
  | _, out => .ok out

/-- `blocked_variable_byte_decode`. -/
def blockedVariableByteDecode (encoded : BlockedAdjacency) : Except Exception (List UInt32) :=
  if encoded.blockOffsets.head? ≠ some 0 then
    .error (.invalidArgument "invalid blocked adjacency offsets")
  else
    match decodeBlocks encoded.payload encoded.blockOffsets [] with
    | .error exception => .error exception
    | .ok out =>
      if out.length ≠ encoded.valueCount then
        .error (.invalidArgument "blocked adjacency count mismatch")
      else .ok out

section Deltas

variable {ids : List UInt32} {prev : UInt32}

/-- The differences of an ascending row add up to the row. -/
theorem deltaDecodeAfter_encode (hsorted : (prev :: ids).Pairwise (· ≤ ·)) :
    ∃ deltas, deltaEncodeAfter prev ids = .ok deltas ∧ deltaDecodeAfter prev deltas = .ok ids := by
  induction ids generalizing prev with
  | nil => exact ⟨[], rfl, rfl⟩
  | cons id rest ih =>
    rw [List.pairwise_cons] at hsorted
    have hle : prev ≤ id := hsorted.1 id List.mem_cons_self
    obtain ⟨deltas, hencode, hdecode⟩ := ih hsorted.2
    refine ⟨(id - prev) :: deltas, ?_, ?_⟩
    · rw [deltaEncodeAfter, if_neg (UInt32.not_lt.mpr hle), hencode]
      rfl
    · rw [deltaDecodeAfter, if_neg (sub_le_limit hle), add_sub_cancel, hdecode]
      rfl

/-- The deltas of an ascending row decode to the row. -/
theorem deltaDecode_encode (hsorted : ids.Pairwise (· ≤ ·)) :
    ∃ deltas, deltaEncode ids = .ok deltas ∧ deltaDecode deltas = .ok ids := by
  cases ids with
  | nil => exact ⟨[], rfl, rfl⟩
  | cons id rest =>
    obtain ⟨deltas, hencode, hdecode⟩ := deltaDecodeAfter_encode hsorted
    refine ⟨id :: deltas, ?_, ?_⟩
    · rw [deltaEncode, hencode]
      rfl
    · rw [deltaDecode, hdecode]
      rfl

end Deltas

section Bytes

variable {value : UInt32} {out data bytes : List UInt8} {deltas : List UInt32}

/-- The byte of a digit that another one follows. -/
theorem toNat_continued (value : UInt32) :
    (((value &&& 0x7F) ||| 0x80).toUInt8).toNat = value.toNat % 128 + 128 := by
  have hmask : (0x7F : UInt32).toNat = 2 ^ 7 - 1 := rfl
  have hhigh : (0x80 : UInt32).toNat = 2 ^ 7 * 1 := rfl
  have hdigit : value.toNat % 128 < 128 := Nat.mod_lt _ (by norm_num)
  rw [UInt32.toNat_toUInt8, UInt32.toNat_or, UInt32.toNat_and, hmask,
    Nat.and_two_pow_sub_one_eq_mod, hhigh, Nat.or_comm,
    ← Nat.two_pow_add_eq_or_of_lt (show value.toNat % 2 ^ 7 < 2 ^ 7 from hdigit)]
  omega

/-- A value is appended as a group of its digits. -/
theorem variableByteEncodeUint32_group (value : UInt32) :
    ∃ group, (∀ out, variableByteEncodeUint32 value out = out ++ group) ∧ IsGroup group ∧
      groupValue group = value.toNat ∧
      ∀ k, value.toNat < 128 ^ (k + 1) → group.length ≤ k + 1 := by
  induction hsize : value.toNat using Nat.strong_induction_on generalizing value with
  | _ size ih =>
    subst hsize
    by_cases hle : 0x80 ≤ value
    · have hlarge : 128 ≤ value.toNat := UInt32.le_iff_toNat_le.mp hle
      have hnext := toNat_shiftRight_seven value
      obtain ⟨group, happend, hgroup, hvalue, hlength⟩ :=
        ih (value >>> 7).toNat (by omega) (value >>> 7) rfl
      have hbyte := toNat_continued value
      refine ⟨((value &&& 0x7F) ||| 0x80).toUInt8 :: group, fun out => ?_, ?_, ?_, fun k hk => ?_⟩
      · rw [variableByteEncodeUint32, if_pos hle, happend, List.append_assoc, List.singleton_append]
      · refine IsGroup.cons_iff.mpr (Or.inr ⟨?_, hgroup⟩)
        rw [Continues]
        omega
      · rw [groupValue_cons, hbyte, hvalue, hnext]
        omega
      · cases k with
        | zero =>
          rw [zero_add, pow_one] at hk
          omega
        | succ k =>
          rw [pow_succ] at hk
          have hshort := hlength k (by omega)
          rw [List.length_cons]
          omega
    · have hsmall : value.toNat < 128 := not_le.mp fun h => hle (UInt32.le_iff_toNat_le.mpr h)
      have hbyte : value.toUInt8.toNat = value.toNat := by
        rw [UInt32.toNat_toUInt8, Nat.mod_eq_of_lt (by omega)]
      refine ⟨[value.toUInt8], fun out => ?_, ?_, ?_, fun k _ => ?_⟩
      · rw [variableByteEncodeUint32, if_neg hle]
      · rw [isGroup_singleton, Continues, hbyte]
        omega
      · rw [groupValue_cons, groupValue_nil, hbyte]
        omega
      · rw [List.length_singleton]
        omega

/-- A decoded group is one more delta. -/
theorem decodeGroups_of_ok {offset next : ℕ} {delta : UInt32} (hlt : offset < data.length)
    (hdecode : variableByteDecodeUint32 data offset = .ok (delta, next)) :
    decodeGroups data offset deltas = decodeGroups data next (deltas ++ [delta]) := by
  rw [decodeGroups, dif_pos hlt]
  split
  · rename_i hthrown
    rw [hdecode] at hthrown
    exact absurd hthrown (by simp)
  · rename_i hread
    rw [hdecode, Except.ok.injEq, Prod.mk.injEq] at hread
    rw [hread.1, hread.2]

/-- The groups that the encoder appends are decoded one after the other. -/
theorem decodeGroups_encode (deltas earlier : List UInt32) {offset : ℕ}
    (hdata : data.drop offset =
      deltas.foldl (fun out delta => variableByteEncodeUint32 delta out) []) :
    decodeGroups data offset earlier = .ok (earlier ++ deltas) := by
  have happend : ∀ (deltas : List UInt32) (out : List UInt8),
      deltas.foldl (fun out delta => variableByteEncodeUint32 delta out) out =
        out ++ deltas.foldl (fun out delta => variableByteEncodeUint32 delta out) [] := by
    intro deltas
    induction deltas with
    | nil => simp
    | cons delta rest ih =>
      intro out
      obtain ⟨group, hgroup, -⟩ := variableByteEncodeUint32_group delta
      rw [List.foldl_cons, List.foldl_cons, hgroup, hgroup, ih, ih ([] ++ group),
        List.nil_append, List.append_assoc]
  induction deltas generalizing offset earlier with
  | nil =>
    have hend : data.length ≤ offset := List.drop_eq_nil_iff.mp hdata
    rw [decodeGroups, dif_neg (by omega), List.append_nil]
  | cons delta rest ih =>
    obtain ⟨group, hencode, hgroup, hvalue, hlength⟩ := variableByteEncodeUint32_group delta
    rw [List.foldl_cons, happend, hencode, List.nil_append] at hdata
    have hfive : group.length ≤ 5 := hlength 4 (delta.toNat_lt.trans (by norm_num))
    have hread := variableByteDecodeUint32_group hdata hgroup hfive
    rw [hvalue, UInt32.ofNat_toNat] at hread
    have hlt : offset < data.length := by
      by_contra hge
      rw [List.drop_eq_nil_of_le (not_lt.mp hge)] at hdata
      exact hgroup.ne_nil (List.append_eq_nil_iff.mp hdata.symm).1
    rw [decodeGroups_of_ok hlt hread, ih (earlier ++ [delta]) ?_, List.append_assoc,
      List.singleton_append]
    rw [← List.drop_drop, hdata, List.drop_left]

/-- An ascending row is decoded from its bytes. -/
theorem variableByteDeltaDecode_encode {ids : List UInt32} (hsorted : ids.Pairwise (· ≤ ·)) :
    ∃ bytes, variableByteDeltaEncode ids = .ok bytes ∧ variableByteDeltaDecode bytes = .ok ids := by
  obtain ⟨deltas, hencode, hdecode⟩ := deltaDecode_encode hsorted
  refine ⟨deltas.foldl (fun out delta => variableByteEncodeUint32 delta out) [], ?_, ?_⟩
  · rw [variableByteDeltaEncode, hencode]
    rfl
  · rw [variableByteDeltaDecode, decodeGroups_encode deltas [] List.drop_zero, List.nil_append]
    exact hdecode

end Bytes

section Blocks

variable {payload : List UInt8} {out decoded ids : List UInt32}

/-- A block more at the end. -/
theorem decodeBlocks_append (earlier : List ℕ) {lower upper : ℕ} {vs : List UInt32}
    (hvs : decodeBlocks payload (earlier ++ [lower]) out = .ok vs) (hle : lower ≤ upper)
    (hwithin : upper ≤ payload.length)
    (hblock : variableByteDeltaDecode ((payload.take upper).drop lower) = .ok decoded) :
    decodeBlocks payload (earlier ++ [lower, upper]) out = .ok (vs ++ decoded) := by
  induction earlier generalizing out with
  | nil =>
    rw [List.nil_append, decodeBlocks, Except.ok.injEq] at hvs
    · subst hvs
      rw [List.nil_append, decodeBlocks, if_neg (by omega), hblock]
      rfl
    · simp
  | cons offset rest ih =>
    cases rest with
    | nil =>
      simp only [List.singleton_append, List.nil_append, decodeBlocks] at hvs ih ⊢
      split at hvs
      · exact absurd hvs (by simp)
      · rename_i hbounds
        rw [if_neg hbounds]
        split at hvs
        · exact absurd hvs (by simp)
        · exact ih hvs
    | cons offset' rest =>
      simp only [List.cons_append, decodeBlocks] at hvs ih ⊢
      split at hvs
      · exact absurd hvs (by simp)
      · rename_i hbounds
        rw [if_neg hbounds]
        split at hvs
        · exact absurd hvs (by simp)
        · exact ih hvs

/-- What the encoder has written after some ids decodes to them, whatever is appended. -/
structure Encoded (ids : List UInt32) (done : ℕ) (result : BlockedAdjacency) : Prop where
  valueCount : result.valueCount = ids.length
  first : result.blockOffsets.head? = some 0
  last : ∃ earlier, result.blockOffsets = earlier ++ [result.payload.length]
  decodes : ∀ more, decodeBlocks (result.payload ++ more) result.blockOffsets [] =
    .ok (ids.take done)

/-- One more block. -/
theorem Encoded.encodeBlock {result : BlockedAdjacency} {first : ℕ} {blockSize : UInt64}
    (h : Encoded ids first result) (hsorted : ids.Pairwise (· ≤ ·)) (hlt : first < ids.length)
    (hnowrap : addU64 first blockSize.toNat = first + blockSize.toNat) :
    ∃ result', encodeBlock ids blockSize first result = .ok result' ∧
      Encoded ids (min ids.length (first + blockSize.toNat)) result' := by
  have hlast : (if first + blockSize.toNat < ids.length then first + blockSize.toNat
      else ids.length) = min ids.length (first + blockSize.toNat) := by
    split <;> omega
  unfold CompressedAdjacency.encodeBlock
  rw [hnowrap]
  dsimp only
  rw [hlast]
  generalize hstop : min ids.length (first + blockSize.toNat) = last
  have hblock : ((ids.take last).drop first).Pairwise (· ≤ ·) :=
    (hsorted.sublist (List.take_sublist _ _)).sublist (List.drop_sublist _ _)
  obtain ⟨bytes, hencode, hdecode⟩ := variableByteDeltaDecode_encode hblock
  obtain ⟨earlier, hoffsets⟩ := h.last
  rw [hencode]
  refine ⟨_, rfl, h.valueCount, ?_, ⟨result.blockOffsets, rfl⟩, fun more => ?_⟩
  · rw [List.head?_append_of_ne_nil _ (by simp [hoffsets])]
    exact h.first
  · have hearlier := h.decodes (bytes ++ more)
    rw [hoffsets] at hearlier
    have hslice : (((result.payload ++ (bytes ++ more)).take (result.payload ++ bytes).length).drop
        result.payload.length) = bytes := by
      rw [← List.append_assoc, List.take_left, List.drop_left]
    have hwhole := @decodeBlocks_append (result.payload ++ (bytes ++ more)) [] _ earlier
      result.payload.length (result.payload ++ bytes).length _ hearlier
      (by simp) (by simp) (by rw [hslice, hdecode])
    dsimp only
    rw [hoffsets, List.append_assoc, List.append_assoc, List.singleton_append, hwhole]
    have hstart : (ids.take last).take first = ids.take first := by
      rw [List.take_take, min_eq_left (by omega)]
    rw [← hstart, List.take_append_drop]

/-- Every ascending row that a vector can hold is encoded. -/
theorem blocked_encodes (hsorted : ids.Pairwise (· ≤ ·)) (hcapacity : ids.length < 2 ^ 61)
    {blockSize : UInt64} (hblockSize : 1 ≤ blockSize) :
    Returns (fun fuel => blockedVariableByteEncode fuel ids blockSize) fun result =>
      ∃ encoded, result = .ok encoded ∧ Encoded ids ids.length encoded := by
  obtain ⟨hpos, hne⟩ := toNat_pos_and_ne_zero hblockSize
  unfold blockedVariableByteEncode
  simp only [if_neg hne]
  have hwidth : blockSize.toNat < 2 ^ 64 := blockSize.toNat_lt
  refine returns_blockLoop (by omega) hpos hwidth (Encoded ids) (fun first s hlt hfits hinv => ?_)
    ⟨rfl, rfl, ⟨[], rfl⟩, fun more => rfl⟩
  exact hinv.encodeBlock hsorted hlt (Nat.mod_eq_of_lt hfits)

/-- The decoder returns the row, whatever is appended to the payload. -/
theorem Encoded.decode_append {encoded : BlockedAdjacency} (h : Encoded ids ids.length encoded)
    (more : List UInt8) :
    blockedVariableByteDecode { encoded with payload := encoded.payload ++ more } = .ok ids := by
  have hdecodes := h.decodes more
  rw [List.take_length] at hdecodes
  rw [blockedVariableByteDecode, if_neg (by simp [h.first]), hdecodes]
  simp [h.valueCount]

/-- Both codecs return every ascending row of ids that a vector can hold. -/
theorem codecs_round_trip (ids : List UInt32) (hsorted : ids.Pairwise (· ≤ ·))
    (hcapacity : ids.length < 2 ^ 61) (blockSize : UInt64) (hblockSize : 1 ≤ blockSize) :
    (variableByteDeltaEncode ids).bind variableByteDeltaDecode = .ok ids ∧
      Returns (fun fuel => blockedVariableByteEncode fuel ids blockSize) fun result =>
        ∃ encoded, result = .ok encoded ∧ blockedVariableByteDecode encoded = .ok ids := by
  constructor
  · obtain ⟨bytes, hencode, hdecode⟩ := variableByteDeltaDecode_encode hsorted
    rw [hencode]
    exact hdecode
  · refine (blocked_encodes hsorted hcapacity hblockSize).mono fun result hresult => ?_
    obtain ⟨encoded, rfl, hencoded⟩ := hresult
    have hdecode := hencoded.decode_append []
    rw [List.append_nil] at hdecode
    exact ⟨encoded, rfl, hdecode⟩

/-- Equal neighbours and ids of five bytes, in a full block and a ragged one. -/
theorem codecs_round_trip_ragged :
    let ids : List UInt32 := [7, 7, 4294967295]
    (variableByteDeltaEncode ids).bind variableByteDeltaDecode = .ok ids ∧
      Returns (fun fuel => blockedVariableByteEncode fuel ids 2) fun result =>
        ∃ encoded, result = .ok encoded ∧ blockedVariableByteDecode encoded = .ok ids :=
  codecs_round_trip [7, 7, 4294967295] (by decide) (by decide) 2 (by decide)

end Blocks

end CompressedAdjacency

end VeloGraphX
