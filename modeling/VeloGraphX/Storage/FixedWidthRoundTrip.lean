import Mathlib
import VeloGraphX.Lib.ListBounds
import VeloGraphX.Storage.CompressedAdjacency
import VeloGraphX.Storage.VectorizedDecode

/-!
# The round trip of fixed-width blocks

What the encoder has written so far is decoded to the ids it has visited, whatever blocks and bytes
follow. The lane width it chooses for a block holds every delta of the block.
-/

namespace VeloGraphX

open FuelLoop ByteStream CheckedMemory

namespace FixedWidth

section Writing

variable {deltas : List UInt32} {laneBytes : UInt8}

/-- A value is appended as its low bytes. -/
theorem appendFixedWidthUint32_eq (value : UInt32) (hlane : laneBytes.toNat ≤ 4)
    (out : List UInt8) :
    appendFixedWidthUint32 value laneBytes out = out ++ lowBytes laneBytes.toNat value.toNat := by
  have hbyte : ∀ byte < 4, ((value >>> UInt32.ofNat (8 * byte)) &&& 0xFF).toUInt8 =
      UInt8.ofNat (value.toNat / 256 ^ byte) := fun byte hbyte => by
    have hshift : (UInt32.ofNat (8 * byte)).toNat = 8 * byte := by
      rw [UInt32.toNat_ofNat', Nat.mod_eq_of_lt (by omega)]
    have hmask : (0xFF : UInt32).toNat = 2 ^ 8 - 1 := rfl
    have hpow : 256 ^ byte = 2 ^ (8 * byte) := by
      rw [pow_mul]
      norm_num
    refine UInt8.toNat_inj.mp ?_
    rw [UInt32.toNat_toUInt8, UInt32.toNat_and, UInt32.toNat_shiftRight, hmask,
      Nat.and_two_pow_sub_one_eq_mod, hshift, Nat.mod_eq_of_lt (show 8 * byte < 32 by omega),
      Nat.shiftRight_eq_div_pow, UInt8.toNat_ofNat', hpow, Nat.mod_mod]
  unfold appendFixedWidthUint32 lowBytes
  generalize laneBytes.toNat = n at hlane
  induction n with
  | zero => simp
  | succ n ih =>
    rw [List.range_succ, List.foldl_append, List.foldl_cons, List.foldl_nil, ih (by omega),
      hbyte n (by omega), List.map_append, List.append_assoc]
    rfl

/-- The deltas of a block are appended lane by lane. -/
theorem foldl_append_eq (deltas : List UInt32) (hlane : laneBytes.toNat ≤ 4)
    (payload : List UInt8) :
    deltas.foldl (fun payload delta => appendFixedWidthUint32 delta laneBytes payload) payload =
      payload ++ deltas.flatMap fun delta => lowBytes laneBytes.toNat delta.toNat := by
  induction deltas generalizing payload with
  | nil => simp
  | cons delta rest ih =>
    rw [List.foldl_cons, ih, appendFixedWidthUint32_eq delta hlane, List.append_assoc,
      List.flatMap_cons]

/-- The lanes of a block take their width each. -/
theorem length_flatMap_lowBytes (n : ℕ) (deltas : List UInt32) :
    (deltas.flatMap fun delta => lowBytes n delta.toNat).length = deltas.length * n := by
  induction deltas with
  | nil => simp
  | cons delta rest ih =>
    rw [List.flatMap_cons, List.length_append, ih, length_lowBytes, List.length_cons]
    ring

/-- A lane holds the delta that was written there. -/
theorem laneValue_flatMap {n k : ℕ} {delta : UInt32} (earlier later : List UInt8)
    (hget : deltas[k]? = some delta) (hfits : delta.toNat < 256 ^ n) :
    laneValue (earlier ++ ((deltas.flatMap fun delta => lowBytes n delta.toNat) ++ later))
      (earlier.length + k * n) n = delta := by
  have hslice : ((earlier ++ ((deltas.flatMap fun delta => lowBytes n delta.toNat) ++ later)).drop
      (earlier.length + k * n)).take n = lowBytes n delta.toNat := by
    rw [List.drop_append]
    simp only [Nat.add_sub_cancel_left]
    rw [List.drop_eq_nil_of_le (by omega), List.nil_append]
    induction deltas generalizing k with
    | nil => exact absurd hget (by simp)
    | cons first rest ih =>
      rw [List.flatMap_cons, List.append_assoc]
      cases k with
      | zero =>
        obtain rfl := Option.some.inj hget
        rw [Nat.zero_mul, List.drop_zero, List.take_left' (length_lowBytes _ _)]
      | succ k =>
        rw [Nat.succ_mul, Nat.add_comm, ← List.drop_drop, List.drop_left' (length_lowBytes _ _)]
        exact ih hget
  rw [laneValue, hslice, ofLowBytes_lowBytes, Nat.mod_eq_of_lt hfits, UInt32.ofNat_toNat]

/-- The chosen width is one the decoder accepts and holds every value up to the largest. -/
theorem requiredLaneBytes_spec (maxDelta : UInt32) :
    (requiredLaneBytes maxDelta = 1 ∨ requiredLaneBytes maxDelta = 2 ∨
        requiredLaneBytes maxDelta = 4) ∧
      ∀ delta ≤ maxDelta, delta.toNat < 256 ^ (requiredLaneBytes maxDelta).toNat := by
  unfold requiredLaneBytes
  split
  · rename_i hone
    refine ⟨Or.inl rfl, fun delta hdelta => ?_⟩
    have hle := UInt32.le_iff_toNat_le.mp (UInt32.le_trans hdelta hone)
    exact Nat.lt_succ_of_le hle
  · split
    · rename_i htwo
      refine ⟨Or.inr (Or.inl rfl), fun delta hdelta => ?_⟩
      have hle := UInt32.le_iff_toNat_le.mp (UInt32.le_trans hdelta htwo)
      exact Nat.lt_succ_of_le hle
    · exact ⟨Or.inr (Or.inr rfl), fun delta _ => delta.toNat_lt⟩

end Writing

section Blocks

variable {ids : List UInt32} {first count : ℕ} {encoded whole : SimdFriendlyAdjacency}
  {block : FixedWidthDeltaBlock}

/-- The deltas of a block. -/
def blockDelta (ids : List UInt32) (first i : ℕ) : UInt32 :=
  if i = first then ids.getD i 0 else ids.getD i 0 - ids.getD (i - 1) 0

/-- The output after some ids. -/
def written (ids : List UInt32) (done : ℕ) : List UInt32 :=
  ids.take done ++ List.replicate (ids.length - done) 0

/-- The output has room for all ids. -/
theorem length_written {done : ℕ} (hdone : done ≤ ids.length) :
    (written ids done).length = ids.length := by
  simp only [written, List.length_append, List.length_take, List.length_replicate]
  omega

/-- One more id. -/
theorem written_succ {done : ℕ} (hdone : done < ids.length) :
    (written ids done).take done ++ [ids.getD done 0] ++ (written ids done).drop (done + 1) =
      written ids (done + 1) := by
  have hlength : (ids.take done).length = done := by
    rw [List.length_take]
    omega
  have hget : ids.take (done + 1) = ids.take done ++ [ids.getD done 0] := by
    rw [List.take_add_one, List.getD_eq_getElem?_getD, List.getElem?_eq_getElem hdone]
    rfl
  rw [written, List.take_left' hlength, ← List.drop_drop, List.drop_left' hlength,
    List.drop_replicate, written, hget, Nat.sub_sub]

/-- The deltas of a block add up to its ids. -/
theorem accumulate_block {what : String} {delta : ℕ → Except (Fault Exception) UInt32}
    (hsorted : ids.Pairwise (· ≤ ·)) (hcapacity : ids.length < 2 ^ 64)
    (hblock : first + count ≤ ids.length)
    (hdelta : ∀ i < count, delta i = .ok (blockDelta ids first (first + i))) :
    accumulate what delta (UInt64.ofNat first) count (written ids first) =
      .ok (written ids (first + count)) := by
  have hloop : ∃ state, countUp (addDelta what delta (UInt64.ofNat first)) count 0
      (0, written ids first) = .ok state ∧ ((0 + count ≠ 0 →
        state.1 = ids.getD (first + (0 + count) - 1) 0) ∧
        state.2 = written ids (first + (0 + count))) := by
    refine countUp_rule (fun i (state : UInt32 × List UInt32) =>
      (i ≠ 0 → state.1 = ids.getD (first + i - 1) 0) ∧ state.2 = written ids (first + i)) count 0
      (fun i state _ hi hinv => ?_) ⟨fun hzero => absurd rfl hzero, rfl⟩
    obtain ⟨hvalue, hout⟩ := hinv
    have hoffset : (UInt64.ofNat first).toNat = first := by
      rw [UInt64.toNat_ofNat', Nat.mod_eq_of_lt (by omega)]
    have hlength : state.2.length = ids.length := by
      rw [hout, length_written (by omega)]
    have hnext : (if i = 0 then blockDelta ids first (first + i)
        else state.1 + blockDelta ids first (first + i)) = ids.getD (first + i) 0 := by
      unfold blockDelta
      by_cases hzero : i = 0
      · rw [if_pos hzero, if_pos (by omega)]
      · rw [if_neg hzero, if_neg (by omega), hvalue hzero, add_sub_cancel]
    refine ⟨(ids.getD (first + i) 0, written ids (first + (i + 1))), ?_, fun _ => rfl, rfl⟩
    rw [addDelta_eq (by omega) (by omega) (hdelta i (by omega)), if_neg]
    · dsimp only
      rw [hnext, hoffset, hout, written_succ (by omega)]
      rfl
    · rintro ⟨hzero, hoverflow⟩
      rw [blockDelta, if_neg (by omega), hvalue hzero] at hoverflow
      refine CompressedAdjacency.sub_le_limit ?_ hoverflow
      have hpair := List.pairwise_iff_getElem.mp hsorted (first + i - 1) (first + i) (by omega)
        (by omega) (by omega)
      rwa [List.getD_eq_getElem _ _ (by omega), List.getD_eq_getElem _ _ (by omega)]
  obtain ⟨state, hrun, -, hout⟩ := hloop
  rw [Nat.zero_add] at hout
  rw [accumulate, hrun, ← hout]
  rfl

/-- A block that lies inside passes the checks. -/
theorem Fits.checkBlock (h : Fits encoded block) (hsized : Sized encoded)
    (hpos : block.valueCount ≠ 0) :
    checkBlock encoded block.valueOffset block.payloadOffset block =
      .ok (block.valueCount * block.laneBytes.toUInt64) := by
  have hvalueCount := hsized.valueCount
  have hlength := hsized.payload
  have hvalues := h.values
  have hpayload := h.payload
  have hsize := hsized.toNat_payloadSize
  have hbytes : (block.valueCount * block.laneBytes.toUInt64).toNat =
      block.valueCount.toNat * block.laneBytes.toNat := by
    rw [UInt64.toNat_mul, UInt8.toNat_toUInt64, Nat.mod_eq_of_lt (by omega)]
  have hoffset : block.payloadOffset ≤ encoded.payloadSize := by
    rw [UInt64.le_iff_toNat_le, hsize]
    omega
  unfold FixedWidth.checkBlock
  rw [if_neg (by simp), if_neg, if_neg (by rcases h.lane with hlane | hlane | hlane <;>
    simp [hlane]), if_neg]
  · rw [not_or, UInt64.not_lt, UInt64.not_lt]
    refine ⟨hoffset, UInt64.le_iff_toNat_le.mpr ?_⟩
    rw [UInt64.toNat_sub_of_le _ _ hoffset, hbytes, hsize]
    omega
  · rw [not_or, UInt64.not_lt, UInt64.le_iff_toNat_le, UInt64.toNat_add,
      Nat.mod_eq_of_lt (by omega)]
    exact ⟨hpos, hvalues⟩

/-- What the encoder has written after some ids decodes to them, whatever follows. -/
structure Encoded (ids : List UInt32) (done : ℕ) (encoded : SimdFriendlyAdjacency) : Prop where
  valueCount : encoded.valueCount = UInt64.ofNat ids.length
  bytes : encoded.payload.length ≤ 4 * done
  decodes : ∀ whole, whole.valueCount = UInt64.ofNat ids.length →
    encoded.payload <+: whole.payload → Sized whole → ∀ rest,
    decodeBlocks whole (scalarBlock whole) (encoded.blocks ++ rest) 0 0 (written ids 0) =
      decodeBlocks whole (scalarBlock whole) rest (UInt64.ofNat done) encoded.payloadSize
        (written ids done)

/-- Numbers of ids and bytes fit in 64 bits. -/
theorem toNat_ofNat_of_lt {n : ℕ} (hn : n < 2 ^ 63) : (UInt64.ofNat n).toNat = n := by
  rw [UInt64.toNat_ofNat', Nat.mod_eq_of_lt (by omega)]

/-- The metadata the encoder gives to the block of the ids from `first` up to `last`. -/
def blockAt (encoded : SimdFriendlyAdjacency) (first last : ℕ) (lane : UInt8) :
    FixedWidthDeltaBlock :=
  ⟨UInt64.ofNat first, UInt64.ofNat (last - first), encoded.payloadSize, lane⟩

/-- The lanes of a block follow right after the bytes of the earlier blocks. -/
structure Placed (ids : List UInt32) (first last : ℕ) (lane : UInt8) (deltas : List UInt32)
    (encoded whole : SimdFriendlyAdjacency) (later : List UInt8) : Prop where
  nonempty : first < last
  last_le : last ≤ ids.length
  lane_eq : lane = 1 ∨ lane = 2 ∨ lane = 4
  length_deltas : deltas.length = last - first
  get_deltas : ∀ i < last - first, deltas[i]? = some (blockDelta ids first (first + i))
  fits : ∀ delta ∈ deltas, delta.toNat < 256 ^ lane.toNat
  small : ids.length < 2 ^ 61 ∧ encoded.payload.length ≤ 4 * first
  valueCount : whole.valueCount = UInt64.ofNat ids.length
  payload : encoded.payload ++ ((deltas.flatMap fun delta => lowBytes lane.toNat delta.toNat) ++
    later) = whole.payload

section Placed

variable {last : ℕ} {lane : UInt8} {deltas : List UInt32} {later : List UInt8}
  (h : Placed ids first last lane deltas encoded whole later)

include h

/-- The number of ids before the block. -/
theorem Placed.toNat_first : (UInt64.ofNat first).toNat = first := by
  obtain ⟨hnonempty, hlast, -, -, -, -, hsmall, -, -⟩ := h
  exact toNat_ofNat_of_lt (by omega)

/-- The number of ids in the block. -/
theorem Placed.toNat_count : (UInt64.ofNat (last - first)).toNat = last - first := by
  obtain ⟨hnonempty, hlast, -, -, -, -, hsmall, -, -⟩ := h
  exact toNat_ofNat_of_lt (by omega)

/-- The number of bytes before the block. -/
theorem Placed.toNat_payloadSize : encoded.payloadSize.toNat = encoded.payload.length := by
  obtain ⟨hnonempty, hlast, -, -, -, -, hsmall, -, -⟩ := h
  exact toNat_ofNat_of_lt (by omega)

/-- The number of bytes of the block. -/
theorem Placed.length_lanes :
    (deltas.flatMap fun delta => lowBytes lane.toNat delta.toNat).length =
      (last - first) * lane.toNat := by
  rw [length_flatMap_lowBytes, h.length_deltas]

/-- The block lies inside. -/
theorem Placed.inside : Fits whole (blockAt encoded first last lane) := by
  have hnonempty := h.nonempty
  have hlast := h.last_le
  have hsmall := h.small
  refine ⟨h.lane_eq, ?_, ?_⟩
  · rw [blockAt, h.toNat_first, h.toNat_count, h.valueCount, toNat_ofNat_of_lt (by omega)]
    omega
  · rw [blockAt, h.toNat_payloadSize, h.toNat_count, ← h.payload, List.length_append,
      List.length_append, h.length_lanes]
    dsimp only
    omega

/-- Its lanes are read as its deltas. -/
theorem Placed.read (hsized : Sized whole) {i : ℕ} (hi : i < last - first) :
    readFixedWidthUint32 whole.payload (encoded.payloadSize + UInt64.ofNat i * lane.toUInt64) lane =
      .ok (blockDelta ids first (first + i)) := by
  have hcount := h.toNat_count
  have hread := h.inside.read hsized (i := i) (hi.trans_eq hcount.symm)
  rw [blockAt] at hread
  dsimp only at hread
  rw [hread, h.toNat_payloadSize, ← h.payload, laneValue_flatMap _ _ (h.get_deltas i hi)
    (h.fits _ (List.mem_of_getElem? (h.get_deltas i hi)))]

/-- The portable reader writes its ids. -/
theorem Placed.scalarBlock (hsized : Sized whole) (hsorted : ids.Pairwise (· ≤ ·)) :
    scalarBlock whole (blockAt encoded first last lane) (written ids first) =
      .ok (written ids last) := by
  have hnonempty := h.nonempty
  have hlast := h.last_le
  have hsmall := h.small
  have hsum := @accumulate_block ids first (last - first) "fixed-width delta decode overflow" _
    hsorted (by omega) (by omega) fun i hi => h.read hsized hi
  rw [show first + (last - first) = last by omega] at hsum
  rw [FixedWidth.scalarBlock, blockAt]
  dsimp only
  rw [h.toNat_count]
  exact hsum

/-- The block passes the checks. -/
theorem Placed.check (hsized : Sized whole) :
    checkBlock whole (UInt64.ofNat first) encoded.payloadSize (blockAt encoded first last lane) =
      .ok (UInt64.ofNat (last - first) * lane.toUInt64) := by
  refine h.inside.checkBlock hsized fun hzero => ?_
  have hnone := congrArg UInt64.toNat hzero
  have hnonempty := h.nonempty
  rw [blockAt, h.toNat_count, UInt64.toNat_zero] at hnone
  omega

/-- The next block's number of earlier ids. -/
theorem Placed.nextValueOffset :
    UInt64.ofNat first + UInt64.ofNat (last - first) = UInt64.ofNat last := by
  have hnonempty := h.nonempty
  have hlast := h.last_le
  have hsmall := h.small
  refine UInt64.toNat_inj.mp ?_
  rw [UInt64.toNat_add, h.toNat_first, h.toNat_count, toNat_ofNat_of_lt (by omega),
    Nat.mod_eq_of_lt (by omega)]
  omega

/-- The next block's number of earlier bytes. -/
theorem Placed.nextPayloadOffset :
    encoded.payloadSize + UInt64.ofNat (last - first) * lane.toUInt64 = UInt64.ofNat
      (encoded.payload ++ deltas.flatMap fun delta => lowBytes lane.toNat delta.toNat).length := by
  have hnonempty := h.nonempty
  have hlast := h.last_le
  have hsmall := h.small
  have hbytes : (last - first) * lane.toNat ≤ (last - first) * 4 :=
    Nat.mul_le_mul_left _ (lane_le_four h.lane_eq)
  refine UInt64.toNat_inj.mp ?_
  rw [UInt64.toNat_add, UInt64.toNat_mul, h.toNat_payloadSize, h.toNat_count,
    UInt8.toNat_toUInt64, List.length_append, h.length_lanes, toNat_ofNat_of_lt (by omega),
    Nat.mod_eq_of_lt (show (last - first) * lane.toNat < 2 ^ 64 by omega),
    Nat.mod_eq_of_lt (by omega)]

end Placed

/-- One more block. -/
theorem Encoded.encodeBlock {blockSize : UInt64} (h : Encoded ids first encoded)
    (hsorted : ids.Pairwise (· ≤ ·)) (hcapacity : ids.length < 2 ^ 61) (hlt : first < ids.length)
    (hpos : 0 < blockSize.toNat)
    (hnowrap : addU64 first blockSize.toNat = first + blockSize.toNat) :
    Encoded ids (min ids.length (first + blockSize.toNat))
      (encodeBlock ids blockSize first encoded) := by
  unfold FixedWidth.encodeBlock
  rw [hnowrap]
  dsimp only
  generalize hlast : min ids.length (first + blockSize.toNat) = last
  generalize hdeltas : ((List.range' first (last - first)).map fun i =>
    if i = first then ids.getD i 0 else ids.getD i 0 - ids.getD (i - 1) 0) = deltas
  obtain ⟨hlane, hwide⟩ := requiredLaneBytes_spec (deltas.foldl max 0)
  have hmax := (ListBounds.le_foldl_max (fun _ _ => rfl) id deltas (0 : UInt32)).2
  generalize requiredLaneBytes (deltas.foldl max 0) = lane at hlane hwide
  have hcount : deltas.length = last - first := by
    rw [← hdeltas, List.length_map, List.length_range']
  have hget : ∀ i < last - first, deltas[i]? = some (blockDelta ids first (first + i)) := by
    intro i hi
    rw [← hdeltas, List.getElem?_map, List.getElem?_range' hi, Nat.one_mul]
    rfl
  have hfour := lane_le_four hlane
  rw [foldl_append_eq deltas hfour]
  refine ⟨h.valueCount, ?_, fun whole hvalueCount hprefix hsized rest => ?_⟩
  · have hbytes := h.bytes
    have hlaneBytes := Nat.mul_le_mul_left (last - first) hfour
    rw [List.length_append, length_flatMap_lowBytes, hcount]
    omega
  · obtain ⟨later, hwhole⟩ := hprefix
    rw [List.append_assoc] at hwhole
    have hblock : Placed ids first last lane deltas encoded whole later :=
      ⟨by omega, by omega, hlane, hcount, hget, fun delta hdelta => hwide delta (hmax delta hdelta),
        ⟨hcapacity, h.bytes⟩, hvalueCount, hwhole⟩
    rw [List.append_assoc, List.singleton_append]
    refine (h.decodes whole hvalueCount ⟨_, hwhole⟩ hsized
      (blockAt encoded first last lane :: rest)).trans ?_
    rw [decodeBlocks, hblock.check hsized]
    dsimp only
    rw [hblock.scalarBlock hsized hsorted, ok_bind, blockAt]
    dsimp only
    rw [hblock.nextValueOffset, hblock.nextPayloadOffset]
    rfl

/-- An ascending row passes the encoder's check. -/
theorem isSorted_of_pairwise (hsorted : ids.Pairwise (· ≤ ·)) : isSorted ids = true := by
  induction ids with
  | nil => rfl
  | cons id rest ih =>
    rw [List.pairwise_cons] at hsorted
    cases rest with
    | nil => rfl
    | cons next rest =>
      have hle : id ≤ next := hsorted.1 next List.mem_cons_self
      rw [isSorted, ih hsorted.2, Bool.and_true]
      simpa using hle

/-- Every ascending row that a vector can hold is encoded and decoded again. -/
theorem simdFriendly_round_trip (hsorted : ids.Pairwise (· ≤ ·)) (hcapacity : ids.length < 2 ^ 61)
    {blockSize : UInt64} (hblockSize : 1 ≤ blockSize) :
    Returns (fun fuel => simdFriendlyDeltaEncode fuel ids blockSize) fun result =>
      ∃ encoded, result = .ok encoded ∧ Sized encoded ∧
        simdFriendlyDeltaDecode encoded = .ok ids := by
  obtain ⟨hpos, hne⟩ := toNat_pos_and_ne_zero hblockSize
  unfold simdFriendlyDeltaEncode
  simp only [if_neg hne, isSorted_of_pairwise hsorted, Bool.true_eq_false, if_false]
  refine (returns_blockLoop (by omega) hpos blockSize.toNat_lt (Encoded ids)
    (fun first s hlt hfits hinv => ⟨_, rfl, hinv.encodeBlock hsorted hcapacity hlt hpos
      (Nat.mod_eq_of_lt hfits)⟩) ⟨rfl, Nat.zero_le _, fun _ _ _ _ _ => rfl⟩).mono
      fun result hresult => ?_
  obtain ⟨encoded, rfl, hencoded⟩ := hresult
  have hvalues : encoded.valueCount.toNat = ids.length := by
    rw [hencoded.valueCount, UInt64.toNat_ofNat', Nat.mod_eq_of_lt (by omega)]
  have hbytes := hencoded.bytes
  have hsized : Sized encoded := ⟨hvalues ▸ hcapacity, by omega⟩
  have hdecodes := hencoded.decodes encoded hencoded.valueCount (List.prefix_refl _) hsized []
  refine ⟨encoded, rfl, hsized, ?_⟩
  have hstart : written ids 0 = List.replicate encoded.valueCount.toNat 0 := by
    rw [written, hvalues]
    rfl
  have hwhole : written ids ids.length = ids := by
    rw [written, List.take_length, Nat.sub_self, List.replicate_zero, List.append_nil]
  rw [List.append_nil, hstart, decodeBlocks, if_neg, hwhole] at hdecodes
  · exact hdecodes
  · simp [hencoded.valueCount]

/-- On every value that vectors can hold, well-formed or not, the scalar and each vectorized
decoder return the same list or throw alike, and neither leaves a buffer; and they return every
ascending row from what the encoder makes of it. -/
theorem decoders_agree :
    (∀ (encoded : SimdFriendlyAdjacency) (backend : VectorDecodeBackend),
        encoded.valueCount.toNat < 2 ^ 61 → encoded.payload.length < 2 ^ 63 →
        SameOutcome Exception.SameClass (simdFriendlyDeltaDecode encoded)
            (simdFriendlyDeltaDecodeVectorized backend encoded) ∧
          simdFriendlyDeltaDecode encoded ≠ .error .outOfBounds ∧
          simdFriendlyDeltaDecodeVectorized backend encoded ≠ .error .outOfBounds) ∧
      ∀ (ids : List UInt32) (blockSize : UInt64), ids.Pairwise (· ≤ ·) → ids.length < 2 ^ 61 →
        1 ≤ blockSize → Returns (fun fuel => simdFriendlyDeltaEncode fuel ids blockSize)
          fun result => ∃ encoded, result = .ok encoded ∧
            simdFriendlyDeltaDecode encoded = .ok ids ∧
            ∀ backend, simdFriendlyDeltaDecodeVectorized backend encoded = .ok ids := by
  refine ⟨fun encoded backend hvalueCount hpayload => ?_,
    fun ids blockSize hsorted hcapacity hblockSize => ?_⟩
  · have hsame := decoders_same ⟨hvalueCount, hpayload⟩ backend
    exact ⟨hsame, hsame.in_bounds⟩
  · refine (simdFriendly_round_trip hsorted hcapacity hblockSize).mono fun result hresult => ?_
    obtain ⟨encoded, rfl, hsized, hdecode⟩ := hresult
    exact ⟨encoded, rfl, hdecode, fun backend => (decoders_same hsized backend).eq_ok hdecode⟩

/-- A block whose count wraps around the bound of the values, and a row in two blocks. -/
theorem decoders_agree_wrapping :
    let encoded : SimdFriendlyAdjacency :=
      { valueCount := 1
        blocks := [⟨0, 1, 0, 1⟩, ⟨1, 0xFFFFFFFFFFFFFFFF, 1, 2⟩]
        payload := [9, 0, 0] }
    SameOutcome Exception.SameClass (simdFriendlyDeltaDecode encoded)
        (simdFriendlyDeltaDecodeVectorized .avx2 encoded) ∧
      Returns (fun fuel => simdFriendlyDeltaEncode fuel [3, 3, 70000] 2) fun result =>
        ∃ encoded, result = .ok encoded ∧ simdFriendlyDeltaDecode encoded = .ok [3, 3, 70000] ∧
          ∀ backend, simdFriendlyDeltaDecodeVectorized backend encoded = .ok [3, 3, 70000] :=
  ⟨(decoders_agree.1 _ .avx2 (by decide) (by decide)).1,
    decoders_agree.2 [3, 3, 70000] 2 (by decide) (by decide) (by decide)⟩

end Blocks

end FixedWidth

end VeloGraphX
