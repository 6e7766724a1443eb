import Mathlib
import VeloGraphX.Types
import VeloGraphX.Lib.BlockLoop
import VeloGraphX.Lib.ByteStream
import VeloGraphX.Lib.CheckedMemory

/-!
# Fixed-width delta blocks

The deltas of a block take one, two or four bytes each, the least significant byte first. The
metadata of the blocks is checked in 64-bit arithmetic that can wrap around, so a block that passes
is shown to lie inside the payload and the output.
-/

namespace VeloGraphX

open FuelLoop ByteStream CheckedMemory

/-- Exceptions of one class. -/
def Exception.SameClass : Exception → Exception → Prop
  | .invalidArgument _, .invalidArgument _ => True
  | .outOfRange _, .outOfRange _ => True
  | .runtimeError _, .runtimeError _ => True
  | .lengthError _, .lengthError _ => True
  | .overflowError _, .overflowError _ => True
  | _, _ => False

/-- An exception is of its own class. -/
theorem Exception.sameClass_refl (exception : Exception) : exception.SameClass exception := by
  cases exception <;> trivial

namespace FixedWidth

/-- `FixedWidthDeltaBlock`. -/
structure FixedWidthDeltaBlock where
  valueOffset : UInt64 := 0
  valueCount : UInt64 := 0
  payloadOffset : UInt64 := 0
  laneBytes : UInt8 := 4
deriving DecidableEq, Repr

/-- `SimdFriendlyAdjacency`. -/
structure SimdFriendlyAdjacency where
  blockSize : UInt64 := 128
  valueCount : UInt64 := 0
  blocks : List FixedWidthDeltaBlock := []
  payload : List UInt8 := []
deriving DecidableEq, Repr

/-- `encoded.payload.size()`. -/
def SimdFriendlyAdjacency.payloadSize (encoded : SimdFriendlyAdjacency) : UInt64 :=
  UInt64.ofNat encoded.payload.length

/-- `required_lane_bytes`. -/
def requiredLaneBytes (maxDelta : UInt32) : UInt8 :=
  if maxDelta ≤ 0xFF then 1 else if maxDelta ≤ 0xFFFF then 2 else 4

/-- `append_fixed_width_uint32`. -/
def appendFixedWidthUint32 (value : UInt32) (laneBytes : UInt8) (out : List UInt8) : List UInt8 :=
  (List.range laneBytes.toNat).foldl
    (fun out byte => out ++ [((value >>> UInt32.ofNat (8 * byte)) &&& 0xFF).toUInt8]) out

/-- Or the bytes of one lane together. -/
def orBytes (payload : List UInt8) (start laneBytes : ℕ) : Except (Fault Exception) UInt32 :=
  countUp (fun byte value => do
    let cell ← readCell payload (start + byte)
    pure (value ||| (cell.toUInt32 <<< UInt32.ofNat (8 * byte)))) laneBytes 0 0

/-- `read_fixed_width_uint32`. -/
def readFixedWidthUint32 (payload : List UInt8) (offset : UInt64) (laneBytes : UInt8) :
    Except (Fault Exception) UInt32 :=
  if laneBytes ≠ 1 ∧ laneBytes ≠ 2 ∧ laneBytes ≠ 4 then
    .error (.thrown (.invalidArgument "invalid fixed-width lane size"))
  else if UInt64.ofNat payload.length < offset ∨
      UInt64.ofNat payload.length - offset < laneBytes.toUInt64 then
    .error (.thrown (.invalidArgument "truncated fixed-width payload"))
  else orBytes payload offset.toNat laneBytes.toNat

/-- `std::is_sorted`. -/
def isSorted : List UInt32 → Bool
  | id :: next :: rest => !decide (next < id) && isSorted (next :: rest)
  | _ => true

/-- One turn of the loop of `simd_friendly_delta_encode`. -/
def encodeBlock (ids : List UInt32) (blockSize : UInt64) (first : ℕ)
    (encoded : SimdFriendlyAdjacency) : SimdFriendlyAdjacency :=
  let last := min ids.length (addU64 first blockSize.toNat)
  let deltas := (List.range' first (last - first)).map fun i =>
    if i = first then ids.getD i 0 else ids.getD i 0 - ids.getD (i - 1) 0
  let maxDelta := deltas.foldl max 0
  let laneBytes := requiredLaneBytes maxDelta
  { encoded with
    blocks := encoded.blocks ++ [⟨UInt64.ofNat first, UInt64.ofNat (last - first),
      encoded.payloadSize, laneBytes⟩]
    payload := deltas.foldl (fun payload delta => appendFixedWidthUint32 delta laneBytes payload)
      encoded.payload }

/-- `simd_friendly_delta_encode`. -/
def simdFriendlyDeltaEncode (fuel : ℕ) (ids : List UInt32) (blockSize : UInt64) :
    Option (Except Exception SimdFriendlyAdjacency) :=
  if blockSize = 0 then some (.error (.invalidArgument "block size must be positive"))
  else if isSorted ids = false then some (.error (.invalidArgument "adjacency must be sorted"))
  else blockLoop (2 ^ 64) ids.length blockSize.toNat
    (fun first encoded => .ok (encodeBlock ids blockSize first encoded)) fuel 0
    { blockSize := blockSize, valueCount := UInt64.ofNat ids.length }

/-- The checks of a block, and its bytes. -/
def checkBlock (encoded : SimdFriendlyAdjacency) (expectedValueOffset expectedPayloadOffset : UInt64)
    (block : FixedWidthDeltaBlock) : Except Exception UInt64 :=
  if block.valueOffset ≠ expectedValueOffset ∨ block.payloadOffset ≠ expectedPayloadOffset then
    .error (.invalidArgument "non-contiguous fixed-width block metadata")
  else if block.valueCount = 0 ∨ encoded.valueCount < block.valueOffset + block.valueCount then
    .error (.invalidArgument "invalid fixed-width block value bounds")
  else if block.laneBytes ≠ 1 ∧ block.laneBytes ≠ 2 ∧ block.laneBytes ≠ 4 then
    .error (.invalidArgument "invalid fixed-width lane size")
  else
    let blockBytes := block.valueCount * block.laneBytes.toUInt64
    if encoded.payloadSize < block.payloadOffset ∨
        encoded.payloadSize - block.payloadOffset < blockBytes then
      .error (.invalidArgument "truncated fixed-width block")
    else .ok blockBytes

/-- Add the delta that a reader delivers and write the value; `what` tells of an overflow. -/
def addDelta (what : String) (delta : ℕ → Except (Fault Exception) UInt32) (offset : UInt64)
    (i : ℕ) (state : UInt32 × List UInt32) : Except (Fault Exception) (UInt32 × List UInt32) := do
  let d ← delta i
  if i ≠ 0 ∧ 0xFFFFFFFF - state.1 < d then .error (.thrown (.overflowError what))
  else
    let value := if i = 0 then d else state.1 + d
    let out ← store state.2 (offset + UInt64.ofNat i).toNat [value]
    pure (value, out)

/-- Add up the deltas of a block. -/
def accumulate (what : String) (delta : ℕ → Except (Fault Exception) UInt32) (offset : UInt64)
    (count : ℕ) (out : List UInt32) : Except (Fault Exception) (List UInt32) :=
  (countUp (addDelta what delta offset) count 0 (0, out)).map Prod.snd

/-- The loop over the blocks that both decoders share; `decodeBlock` writes the values of one. -/
def decodeBlocks (encoded : SimdFriendlyAdjacency)
    (decodeBlock : FixedWidthDeltaBlock → List UInt32 → Except (Fault Exception) (List UInt32)) :
    List FixedWidthDeltaBlock → UInt64 → UInt64 → List UInt32 →
      Except (Fault Exception) (List UInt32)
  | [], expectedValueOffset, expectedPayloadOffset, out =>
    if expectedValueOffset ≠ encoded.valueCount ∨ expectedPayloadOffset ≠ encoded.payloadSize then
      .error (.thrown (.invalidArgument "fixed-width adjacency metadata mismatch"))
    else .ok out
  | block :: blocks, expectedValueOffset, expectedPayloadOffset, out =>
    match checkBlock encoded expectedValueOffset expectedPayloadOffset block with
    | .error exception => .error (.thrown exception)
    | .ok blockBytes => do
      let out ← decodeBlock block out
      decodeBlocks encoded decodeBlock blocks (expectedValueOffset + block.valueCount)
        (expectedPayloadOffset + blockBytes) out

/-- The values of one block, each read when it is added. -/
def scalarBlock (encoded : SimdFriendlyAdjacency) (block : FixedWidthDeltaBlock)
    (out : List UInt32) : Except (Fault Exception) (List UInt32) :=
  accumulate "fixed-width delta decode overflow"
    (fun i => readFixedWidthUint32 encoded.payload
      (block.payloadOffset + UInt64.ofNat i * block.laneBytes.toUInt64) block.laneBytes)
    block.valueOffset block.valueCount.toNat out

/-- `simd_friendly_delta_decode`. -/
def simdFriendlyDeltaDecode (encoded : SimdFriendlyAdjacency) :
    Except (Fault Exception) (List UInt32) :=
  decodeBlocks encoded (scalarBlock encoded) encoded.blocks 0 0
    (List.replicate encoded.valueCount.toNat 0)

section Lanes

variable {payload : List UInt8}

/-- The number in one lane. -/
def laneValue (payload : List UInt8) (start laneBytes : ℕ) : UInt32 :=
  UInt32.ofNat (ofLowBytes ((payload.drop start).take laneBytes))

/-- One more byte lands above the bytes before it. -/
theorem toNat_orByte {start byte : ℕ} {cell : UInt8} {value : UInt32} (hbyte : byte < 4)
    (hget : payload[start + byte]? = some cell)
    (hvalue : value.toNat = ofLowBytes ((payload.drop start).take byte)) :
    (value ||| (cell.toUInt32 <<< UInt32.ofNat (8 * byte))).toNat =
      ofLowBytes ((payload.drop start).take (byte + 1)) := by
  have hlow : ((payload.drop start).take byte).length = byte := by
    have hlt := (List.getElem?_eq_some_iff.mp hget).1
    rw [List.length_take, List.length_drop]
    omega
  have hpow : 256 ^ byte = 2 ^ (8 * byte) := by
    rw [pow_mul]
    norm_num
  have hlt := ofLowBytes_lt ((payload.drop start).take byte)
  rw [hlow, hpow] at hlt
  have hshift : (UInt32.ofNat (8 * byte)).toNat = 8 * byte := by
    rw [UInt32.toNat_ofNat', Nat.mod_eq_of_lt (by omega)]
  have htop : cell.toNat * 2 ^ (8 * byte) < 2 ^ 32 := by
    calc cell.toNat * 2 ^ (8 * byte) < 2 ^ 8 * 2 ^ (8 * byte) :=
          Nat.mul_lt_mul_of_pos_right cell.toNat_lt (Nat.two_pow_pos _)
      _ = 2 ^ (8 + 8 * byte) := (pow_add 2 8 _).symm
      _ ≤ 2 ^ 32 := Nat.pow_le_pow_right (by norm_num) (by omega)
  rw [List.take_add_one, List.getElem?_drop, hget, ofLowBytes_append, hlow, UInt32.toNat_or,
    UInt32.toNat_shiftLeft, UInt8.toNat_toUInt32, hshift, hvalue,
    Nat.mod_eq_of_lt (show 8 * byte < 32 by omega), Nat.shiftLeft_eq, Nat.mod_eq_of_lt htop,
    Nat.or_comm, Nat.mul_comm, ← Nat.two_pow_add_eq_or_of_lt hlt, hpow]
  simp [ofLowBytes, Nat.add_comm]

/-- The bytes of a lane are put together, the least significant first. -/
theorem orBytes_eq {start laneBytes : ℕ} (hlane : laneBytes ≤ 4)
    (hfits : start + laneBytes ≤ payload.length) :
    orBytes payload start laneBytes = .ok (laneValue payload start laneBytes) := by
  have hloop : ∃ value, orBytes payload start laneBytes = .ok value ∧
      value.toNat = ofLowBytes ((payload.drop start).take (0 + laneBytes)) := by
    refine countUp_rule (fun byte (value : UInt32) =>
      value.toNat = ofLowBytes ((payload.drop start).take byte)) laneBytes 0 ?_ rfl
    intro byte value _ hbyte hvalue
    have hget := List.getElem?_eq_getElem (show start + byte < payload.length by omega)
    refine ⟨_, ?_, toNat_orByte (by omega) hget hvalue⟩
    rw [readCell_of_lt hget]
    rfl
  obtain ⟨value, hrun, hvalue⟩ := hloop
  rw [Nat.zero_add] at hvalue
  rw [laneValue, ← hvalue, UInt32.ofNat_toNat]
  exact hrun

/-- A block that lies inside the output and the payload. -/
structure Fits (encoded : SimdFriendlyAdjacency) (block : FixedWidthDeltaBlock) : Prop where
  lane : block.laneBytes = 1 ∨ block.laneBytes = 2 ∨ block.laneBytes = 4
  values : block.valueOffset.toNat + block.valueCount.toNat ≤ encoded.valueCount.toNat
  payload : block.payloadOffset.toNat + block.valueCount.toNat * block.laneBytes.toNat ≤
    encoded.payload.length

/-- A vector's sizes: what a 64-bit vector of ids and one of bytes can hold. -/
structure Sized (encoded : SimdFriendlyAdjacency) : Prop where
  valueCount : encoded.valueCount.toNat < 2 ^ 61
  payload : encoded.payload.length < 2 ^ 63

variable {encoded : SimdFriendlyAdjacency} {block : FixedWidthDeltaBlock}
  {expectedValueOffset expectedPayloadOffset blockBytes : UInt64}

/-- The payload's size does not wrap around. -/
theorem Sized.toNat_payloadSize (h : Sized encoded) :
    encoded.payloadSize.toNat = encoded.payload.length := by
  have hpayload := h.payload
  rw [SimdFriendlyAdjacency.payloadSize, UInt64.toNat_ofNat', Nat.mod_eq_of_lt (by omega)]

/-- The checks let only blocks pass that lie inside, also where their sums wrap around. -/
theorem fits_of_checkBlock (hsized : Sized encoded)
    (hvalues : expectedValueOffset.toNat ≤ encoded.valueCount.toNat)
    (hcheck : checkBlock encoded expectedValueOffset expectedPayloadOffset block =
      .ok blockBytes) :
    Fits encoded block ∧ block.valueOffset = expectedValueOffset ∧
      block.payloadOffset = expectedPayloadOffset ∧
      blockBytes.toNat = block.valueCount.toNat * block.laneBytes.toNat := by
  unfold checkBlock at hcheck
  split at hcheck
  · exact absurd hcheck nofun
  rename_i hcontiguous
  split at hcheck
  · exact absurd hcheck nofun
  rename_i hbounds
  split at hcheck
  · exact absurd hcheck nofun
  rename_i hlane
  dsimp only at hcheck
  split at hcheck
  · exact absurd hcheck nofun
  rename_i hpayload
  obtain rfl := Except.ok.inj hcheck
  have hvalueCount := hsized.valueCount
  have hlength := hsized.payload
  have hcount := block.valueCount.toNat_lt
  have hpos : 0 < block.valueCount.toNat := by
    refine Nat.pos_of_ne_zero fun hzero => hbounds (Or.inl (UInt64.toNat_inj.mp hzero))
  simp only [not_or, not_and_or, not_not, UInt64.not_lt, UInt64.le_iff_toNat_le, UInt64.toNat_add,
    hsized.toNat_payloadSize] at hcontiguous hbounds hlane hpayload
  obtain ⟨hoffset, hpayloadOffset⟩ := hcontiguous
  rw [UInt64.toNat_sub_of_le _ _ (UInt64.le_iff_toNat_le.mpr
    (hsized.toNat_payloadSize.symm ▸ hpayload.1)), hsized.toNat_payloadSize,
    UInt64.toNat_mul, UInt8.toNat_toUInt64] at hpayload
  rw [← hoffset] at hvalues
  -- a count that wraps around the value bound is so large that its bytes exceed every payload
  have hall : block.valueOffset.toNat + block.valueCount.toNat ≤ encoded.valueCount.toNat ∧
      block.valueCount.toNat * block.laneBytes.toNat < 2 ^ 64 := by
    rcases hlane with hlane | hlane | hlane <;> rw [hlane] at hpayload ⊢ <;>
      simp only [UInt8.reduceToNat] at hpayload ⊢ <;> omega
  refine ⟨⟨hlane, hall.1, ?_⟩, hoffset, hpayloadOffset, ?_⟩
  · rw [Nat.mod_eq_of_lt hall.2] at hpayload
    omega
  · rw [UInt64.toNat_mul, UInt8.toNat_toUInt64, Nat.mod_eq_of_lt hall.2]

/-- A lane inside the payload is read. -/
theorem Fits.read (h : Fits encoded block) (hsized : Sized encoded) {i : ℕ}
    (hi : i < block.valueCount.toNat) :
    readFixedWidthUint32 encoded.payload
        (block.payloadOffset + UInt64.ofNat i * block.laneBytes.toUInt64) block.laneBytes =
      .ok (laneValue encoded.payload (block.payloadOffset.toNat + i * block.laneBytes.toNat)
        block.laneBytes.toNat) := by
  have hlength := hsized.payload
  have hpayload := h.payload
  have hlane : block.laneBytes.toNat ≤ 4 := by
    rcases h.lane with hlane | hlane | hlane <;> rw [hlane] <;> decide
  have hlast : (i + 1) * block.laneBytes.toNat ≤ block.valueCount.toNat * block.laneBytes.toNat :=
    Nat.mul_le_mul_right _ hi
  rw [Nat.succ_mul] at hlast
  have hindex : (block.payloadOffset + UInt64.ofNat i * block.laneBytes.toUInt64).toNat =
      block.payloadOffset.toNat + i * block.laneBytes.toNat := by
    have hcount := block.valueCount.toNat_lt
    rw [UInt64.toNat_add, UInt64.toNat_mul, UInt64.toNat_ofNat', UInt8.toNat_toUInt64,
      Nat.mod_eq_of_lt (show i < 2 ^ 64 by omega),
      Nat.mod_eq_of_lt (show i * block.laneBytes.toNat < 2 ^ 64 by omega),
      Nat.mod_eq_of_lt (by omega)]
  have hsize := hsized.toNat_payloadSize
  rw [SimdFriendlyAdjacency.payloadSize] at hsize
  have hwithin : block.payloadOffset + UInt64.ofNat i * block.laneBytes.toUInt64 ≤
      UInt64.ofNat encoded.payload.length := by
    rw [UInt64.le_iff_toNat_le, hindex, hsize]
    omega
  unfold readFixedWidthUint32
  rw [if_neg (by rcases h.lane with hlane | hlane | hlane <;> simp [hlane]), if_neg, hindex,
    orBytes_eq hlane (by omega)]
  rw [not_or, UInt64.not_lt, UInt64.not_lt]
  refine ⟨hwithin, UInt64.le_iff_toNat_le.mpr ?_⟩
  rw [UInt64.toNat_sub_of_le _ _ hwithin, hindex, hsize, UInt8.toNat_toUInt64]
  omega

/-- A turn writes one value unless it overflows. -/
theorem addDelta_eq {what : String} {delta : ℕ → Except (Fault Exception) UInt32}
    {offset : UInt64} {i : ℕ} {d : UInt32} {state : UInt32 × List UInt32}
    (hcapacity : state.2.length < 2 ^ 64) (hfits : offset.toNat + i < state.2.length)
    (hdelta : delta i = .ok d) :
    addDelta what delta offset i state =
      if i ≠ 0 ∧ 0xFFFFFFFF - state.1 < d then .error (.thrown (.overflowError what))
      else
        let value := if i = 0 then d else state.1 + d
        .ok (value, state.2.take (offset.toNat + i) ++ [value] ++
          state.2.drop (offset.toNat + i + 1)) := by
  have hindex : (offset + UInt64.ofNat i).toNat = offset.toNat + i := by
    rw [UInt64.toNat_add, UInt64.toNat_ofNat', Nat.mod_eq_of_lt (show i < 2 ^ 64 by omega),
      Nat.mod_eq_of_lt (by omega)]
  rw [addDelta, hdelta, ok_bind]
  split
  · rfl
  · simp only [hindex, store, List.length_singleton]
    rw [if_pos (by omega)]
    rfl

/-- A turn keeps the size of the output. -/
theorem length_of_addDelta {what : String} {delta : ℕ → Except (Fault Exception) UInt32}
    {offset : UInt64} {i : ℕ} {d : UInt32} {state state' : UInt32 × List UInt32}
    (hcapacity : state.2.length < 2 ^ 64) (hfits : offset.toNat + i < state.2.length)
    (hdelta : delta i = .ok d) (hrun : addDelta what delta offset i state = .ok state') :
    state'.2.length = state.2.length := by
  rw [addDelta_eq hcapacity hfits hdelta] at hrun
  split at hrun
  · exact absurd hrun nofun
  · rw [← Except.ok.inj hrun]
    simp only [List.length_append, List.length_take, List.length_drop, List.length_singleton]
    omega

/-- Blocks that read the same deltas have the same outcome. -/
theorem accumulate_same {what what' : String} {delta delta' : ℕ → Except (Fault Exception) UInt32}
    {offset : UInt64} {count : ℕ} {out : List UInt32} (hcapacity : out.length < 2 ^ 64)
    (hfits : offset.toNat + count ≤ out.length)
    (hdelta : ∀ i < count, ∃ d, delta i = .ok d ∧ delta' i = .ok d) :
    SameOutcome Exception.SameClass (accumulate what delta offset count out)
      (accumulate what' delta' offset count out) := by
  refine SameOutcome.map _ (SameOutcome.countUp (fun state => state.2.length = out.length) count 0
    (fun i state _ hi hlength => ?_) rfl)
  obtain ⟨d, hd, hd'⟩ := hdelta i (by omega)
  have hstate : state.2.length < 2 ^ 64 := by omega
  have hroom : offset.toNat + i < state.2.length := by omega
  refine ⟨?_, fun state' hrun => (length_of_addDelta hstate hroom hd hrun).trans hlength⟩
  rw [addDelta_eq hstate hroom hd, addDelta_eq hstate hroom hd']
  split
  · exact trivial
  · exact rfl

/-- A block keeps the size of the output. -/
theorem length_of_accumulate {what : String} {delta : ℕ → Except (Fault Exception) UInt32}
    {offset : UInt64} {count : ℕ} {out out' : List UInt32} (hcapacity : out.length < 2 ^ 64)
    (hfits : offset.toNat + count ≤ out.length) (hdelta : ∀ i < count, ∃ d, delta i = .ok d)
    (hrun : accumulate what delta offset count out = .ok out') : out'.length = out.length := by
  unfold accumulate at hrun
  cases hloop : countUp (addDelta what delta offset) count 0 (0, out) with
  | error fault =>
    rw [hloop] at hrun
    exact absurd hrun nofun
  | ok state =>
    rw [hloop] at hrun
    obtain rfl := Except.ok.inj hrun
    refine countUp_keeps (fun state => state.2.length = out.length) count 0
      (fun i state state' _ hi hlength hturn => ?_) rfl hloop
    obtain ⟨d, hd⟩ := hdelta i (by omega)
    exact (length_of_addDelta (by omega) (by omega) hd hturn).trans hlength

/-- Decoders whose blocks have the same outcome have the same outcome. -/
theorem decodeBlocks_same
    {decodeBlock decodeBlock' :
      FixedWidthDeltaBlock → List UInt32 → Except (Fault Exception) (List UInt32)}
    (hsized : Sized encoded) (hblock : ∀ block out, Fits encoded block →
      out.length = encoded.valueCount.toNat →
      SameOutcome Exception.SameClass (decodeBlock block out) (decodeBlock' block out) ∧
        ∀ out', decodeBlock block out = .ok out' → out'.length = out.length)
    (blocks : List FixedWidthDeltaBlock) {out : List UInt32}
    (hvalues : expectedValueOffset.toNat ≤ encoded.valueCount.toNat)
    (hlength : out.length = encoded.valueCount.toNat) :
    SameOutcome Exception.SameClass
      (decodeBlocks encoded decodeBlock blocks expectedValueOffset expectedPayloadOffset out)
      (decodeBlocks encoded decodeBlock' blocks expectedValueOffset expectedPayloadOffset out) := by
  induction blocks generalizing expectedValueOffset expectedPayloadOffset out with
  | nil =>
    unfold decodeBlocks
    split
    · exact trivial
    · exact rfl
  | cons block rest ih =>
    unfold decodeBlocks
    cases hcheck : checkBlock encoded expectedValueOffset expectedPayloadOffset block with
    | error exception => exact exception.sameClass_refl
    | ok blockBytes =>
      obtain ⟨hfits, hoffset, -, -⟩ := fits_of_checkBlock hsized hvalues hcheck
      obtain ⟨hsame, hkeeps⟩ := hblock block out hfits hlength
      refine hsame.bind fun out' hout' => ih ?_ ((hkeeps out' hout').trans hlength)
      have hsum := hfits.values
      have hcount := encoded.valueCount.toNat_lt
      rw [UInt64.toNat_add, ← hoffset, Nat.mod_eq_of_lt (by omega)]
      exact hsum

end Lanes

end FixedWidth

end VeloGraphX
