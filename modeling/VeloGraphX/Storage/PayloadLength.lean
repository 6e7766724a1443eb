import Mathlib
import VeloGraphX.Storage.BlockedAdjacency
import VeloGraphX.Storage.FixedWidthRoundTrip

/-!
# Payloads of another length

The metadata of an encoded row says how many bytes its blocks take. The fixed-width decoders compare
the sum with the payload's size, so bytes that are missing or too many are noticed. The blocked
decoder only asks that the last offset lies inside, and does not look behind it.
-/

namespace VeloGraphX

open FuelLoop CheckedMemory

/-- A change of a payload's length alone: a tail is dropped, or bytes are appended. -/
inductive LengthChange
  | drop (count : ℕ) (hcount : 0 < count)
  | append (more : List UInt8) (hmore : more ≠ [])

namespace LengthChange

/-- Only bytes that are there can be dropped. -/
def AppliesTo (payload : List UInt8) : LengthChange → Prop
  | drop count _ => count ≤ payload.length
  | append _ _ => True

/-- The payload after the change. -/
def apply (payload : List UInt8) : LengthChange → List UInt8
  | drop count _ => payload.take (payload.length - count)
  | append more _ => payload ++ more

/-- The length changes. -/
theorem length_apply_ne {payload : List UInt8} {change : LengthChange}
    (happlies : change.AppliesTo payload) : (change.apply payload).length ≠ payload.length := by
  cases change with
  | drop count hcount =>
    have hle : count ≤ payload.length := happlies
    rw [apply, List.length_take]
    omega
  | append more hmore =>
    have hpos : 0 < more.length := List.length_pos_iff.mpr hmore
    rw [apply, List.length_append]
    omega

end LengthChange

namespace CompressedAdjacency

variable {payload : List UInt8} {ids out vs : List UInt32} {encoded : BlockedAdjacency}

/-- A payload that is decoded reaches up to every offset but the first. -/
theorem offset_le_of_decodeBlocks {offsets : List ℕ} {offset : ℕ}
    (hrun : decodeBlocks payload offsets out = .ok vs) (hmem : offset ∈ offsets.tail) :
    offset ≤ payload.length := by
  induction offsets generalizing out with
  | nil => exact absurd hmem (by simp)
  | cons lower rest ih =>
    cases rest with
    | nil => exact absurd hmem (by simp)
    | cons upper offsets =>
      rw [decodeBlocks] at hrun
      split at hrun
      · exact absurd hrun (by simp)
      · rename_i hbounds
        split at hrun
        · exact absurd hrun (by simp)
        · rcases List.mem_cons.mp hmem with rfl | hlater
          · omega
          · exact ih hrun hlater

/-- A payload that lost its tail is rejected. -/
theorem Encoded.decode_drop (h : Encoded ids ids.length encoded) {count : ℕ} (hcount : 0 < count)
    (hle : count ≤ encoded.payload.length) :
    ∃ e, blockedVariableByteDecode
      { encoded with payload := encoded.payload.take (encoded.payload.length - count) } =
        .error e := by
  obtain ⟨earlier, hoffsets⟩ := h.last
  have hlast : encoded.payload.length ∈ encoded.blockOffsets.tail := by
    cases earlier with
    | nil =>
      have hfirst := h.first
      rw [hoffsets, List.nil_append, List.head?_cons, Option.some.injEq] at hfirst
      omega
    | cons offset earlier => simp [hoffsets]
  rw [blockedVariableByteDecode, if_neg (by simp [h.first])]
  cases hrun : decodeBlocks (encoded.payload.take (encoded.payload.length - count))
      encoded.blockOffsets [] with
  | error e => exact ⟨e, rfl⟩
  | ok vs =>
    have hreach := offset_le_of_decodeBlocks hrun hlast
    rw [List.length_take] at hreach
    omega

end CompressedAdjacency

namespace FixedWidth

variable {ids out vs : List UInt32} {encoded : SimdFriendlyAdjacency}

/-- The bytes that the blocks account for. -/
def accounted (blocks : List FixedWidthDeltaBlock) (start : UInt64) : UInt64 :=
  blocks.foldl (fun bytes block => bytes + block.valueCount * block.laneBytes.toUInt64) start

/-- The bytes of a block that passes the checks. -/
theorem blockBytes_of_checkBlock {block : FixedWidthDeltaBlock} {values bytes blockBytes : UInt64}
    (hcheck : checkBlock encoded values bytes block = .ok blockBytes) :
    blockBytes = block.valueCount * block.laneBytes.toUInt64 := by
  unfold checkBlock at hcheck
  split at hcheck
  · exact absurd hcheck (by simp)
  split at hcheck
  · exact absurd hcheck (by simp)
  split at hcheck
  · exact absurd hcheck (by simp)
  dsimp only at hcheck
  split at hcheck
  · exact absurd hcheck (by simp)
  exact (Except.ok.inj hcheck).symm

/-- A payload that is decoded has just the bytes that its blocks account for. -/
theorem payloadSize_of_decodeBlocks
    {decodeBlock : FixedWidthDeltaBlock → List UInt32 → Except (Fault Exception) (List UInt32)}
    {blocks : List FixedWidthDeltaBlock} {values bytes : UInt64}
    (hrun : decodeBlocks encoded decodeBlock blocks values bytes out = .ok vs) :
    encoded.payloadSize = accounted blocks bytes := by
  induction blocks generalizing values bytes out with
  | nil =>
    rw [decodeBlocks] at hrun
    split at hrun
    · exact absurd hrun (by simp)
    · rename_i hmatch
      rw [not_or, not_not, not_not] at hmatch
      exact hmatch.2.symm
  | cons block rest ih =>
    rw [decodeBlocks] at hrun
    split at hrun
    · exact absurd hrun (by simp)
    · rename_i blockBytes hcheck
      cases hout : decodeBlock block out with
      | error e =>
        rw [hout] at hrun
        exact absurd hrun (by rintro ⟨⟩)
      | ok out' =>
        rw [hout, ok_bind] at hrun
        rw [ih hrun, blockBytes_of_checkBlock hcheck]
        rfl

/-- A payload of another length is rejected by every decoder. -/
theorem decode_length_ne (hsized : Sized encoded) (hdecode : simdFriendlyDeltaDecode encoded = .ok ids)
    {payload : List UInt8} (hlength : payload.length ≠ encoded.payload.length)
    (hcapacity : payload.length < 2 ^ 63) :
    (∃ e, simdFriendlyDeltaDecode { encoded with payload := payload } = .error (.thrown e)) ∧
      ∀ backend, ∃ e, simdFriendlyDeltaDecodeVectorized backend { encoded with payload := payload } =
        .error (.thrown e) := by
  have hchanged : Sized { encoded with payload := payload } := ⟨hsized.valueCount, hcapacity⟩
  have hscalar : ∃ e, simdFriendlyDeltaDecode { encoded with payload := payload } =
      .error (.thrown e) := by
    have hinside := (decoders_same hchanged .scalar).in_bounds.1
    cases hrun : simdFriendlyDeltaDecode { encoded with payload := payload } with
    | ok vs =>
      have hbefore := congrArg UInt64.toNat (payloadSize_of_decodeBlocks hdecode)
      have hafter := congrArg UInt64.toNat (payloadSize_of_decodeBlocks hrun)
      rw [hsized.toNat_payloadSize] at hbefore
      rw [hchanged.toNat_payloadSize] at hafter
      exact absurd (hafter.trans hbefore.symm) hlength
    | error fault =>
      cases fault with
      | outOfBounds => exact absurd hrun hinside
      | thrown e => exact ⟨e, rfl⟩
  refine ⟨hscalar, fun backend => ?_⟩
  obtain ⟨e, hthrow⟩ := hscalar
  exact (decoders_same hchanged backend).eq_thrown hthrow

end FixedWidth

open CompressedAdjacency FixedWidth

/-- The blocked decoder throws when the length of an encoded payload was changed. -/
def BlockedNotices (ids : List UInt32) (blockSize : UInt64) (change : LengthChange) : Prop :=
  Returns (fun fuel => blockedVariableByteEncode fuel ids blockSize) fun result =>
    ∃ encoded, result = .ok encoded ∧ (change.AppliesTo encoded.payload →
      ∃ e, blockedVariableByteDecode { encoded with payload := change.apply encoded.payload } =
        .error e)

/-- Every fixed-width decoder throws when the length of an encoded payload was changed to one that
a vector can hold. -/
def FixedWidthNotices (ids : List UInt32) (blockSize : UInt64) (change : LengthChange) : Prop :=
  Returns (fun fuel => simdFriendlyDeltaEncode fuel ids blockSize) fun result =>
    ∃ encoded, result = .ok encoded ∧ (change.AppliesTo encoded.payload →
      (change.apply encoded.payload).length < 2 ^ 63 →
      (∃ e, simdFriendlyDeltaDecode { encoded with payload := change.apply encoded.payload } =
        .error (.thrown e)) ∧
      ∀ backend, ∃ e, simdFriendlyDeltaDecodeVectorized backend
        { encoded with payload := change.apply encoded.payload } = .error (.thrown e))

/-- All decoders notice the change. -/
def NoticesChange (ids : List UInt32) (blockSize : UInt64) (change : LengthChange) : Prop :=
  BlockedNotices ids blockSize change ∧ FixedWidthNotices ids blockSize change

section Notices

variable {ids : List UInt32} {blockSize : UInt64}

/-- The fixed-width decoders notice every change. -/
theorem fixedWidth_notices (hsorted : ids.Pairwise (· ≤ ·)) (hcapacity : ids.length < 2 ^ 61)
    (hblockSize : 1 ≤ blockSize) (change : LengthChange) :
    FixedWidthNotices ids blockSize change := by
  refine (simdFriendly_round_trip hsorted hcapacity hblockSize).mono fun result hresult => ?_
  obtain ⟨encoded, rfl, hsized, hdecode⟩ := hresult
  exact ⟨encoded, rfl, fun happlies hholds =>
    decode_length_ne hsized hdecode (LengthChange.length_apply_ne happlies) hholds⟩

/-- The blocked decoder notices exactly the changes that drop bytes. -/
theorem blocked_notices_iff (hsorted : ids.Pairwise (· ≤ ·)) (hcapacity : ids.length < 2 ^ 61)
    (hblockSize : 1 ≤ blockSize) (change : LengthChange) :
    BlockedNotices ids blockSize change ↔ ∃ count hcount, change = .drop count hcount := by
  have hencodes := blocked_encodes hsorted hcapacity hblockSize
  constructor
  · intro hnotices
    cases change with
    | drop count hcount => exact ⟨count, hcount, rfl⟩
    | append more hmore =>
      obtain ⟨result, ⟨⟨encoded, hresult, hthrows⟩, encoded', hresult', hencoded⟩, -⟩ :=
        hnotices.and hencodes
      obtain rfl := Except.ok.inj (hresult.symm.trans hresult')
      obtain ⟨e, hthrow⟩ := hthrows trivial
      exact absurd (hthrow.symm.trans (hencoded.decode_append more)) (by simp)
  · rintro ⟨count, hcount, rfl⟩
    refine hencodes.mono fun result hresult => ?_
    obtain ⟨encoded, rfl, hencoded⟩ := hresult
    exact ⟨encoded, rfl, fun hle => hencoded.decode_drop hcount hle⟩

end Notices

/-- The blocked decoder notices a change exactly where it drops bytes, the fixed-width decoders
notice every change, so all of them do exactly where bytes are dropped. -/
theorem notices_change_iff (ids : List UInt32) (hsorted : ids.Pairwise (· ≤ ·))
    (hcapacity : ids.length < 2 ^ 61) (blockSize : UInt64) (hblockSize : 1 ≤ blockSize)
    (change : LengthChange) :
    (BlockedNotices ids blockSize change ↔ ∃ count hcount, change = .drop count hcount) ∧
      FixedWidthNotices ids blockSize change ∧
      (NoticesChange ids blockSize change ↔ ∃ count hcount, change = .drop count hcount) := by
  have hblocked := blocked_notices_iff hsorted hcapacity hblockSize change
  have hfixed := fixedWidth_notices hsorted hcapacity hblockSize change
  exact ⟨hblocked, hfixed, (and_iff_left hfixed).trans hblocked⟩

/-- A row in two blocks whose last byte is dropped, or that gets one more byte. -/
theorem notices_change_iff_row :
    NoticesChange [3, 3, 70000] 2 (.drop 1 (by decide)) ∧
      ¬ BlockedNotices [3, 3, 70000] 2 (.append [0] (by decide)) ∧
      FixedWidthNotices [3, 3, 70000] 2 (.append [0] (by decide)) := by
  have hdrop := notices_change_iff [3, 3, 70000] (by decide) (by decide) 2 (by decide)
    (.drop 1 (by decide))
  have happend := notices_change_iff [3, 3, 70000] (by decide) (by decide) 2 (by decide)
    (.append [0] (by decide))
  refine ⟨hdrop.2.2.mpr ⟨1, by decide, rfl⟩, fun hnotices => ?_, happend.2.1⟩
  obtain ⟨count, hcount, heq⟩ := happend.1.mp hnotices
  exact absurd heq (by simp)

/-- The blocked decoder does not look at a byte behind the payload of an empty row. -/
theorem not_notices_change :
    ¬ ∀ (ids : List UInt32) (blockSize : UInt64) (change : LengthChange), ids.Pairwise (· ≤ ·) →
      1 ≤ blockSize → NoticesChange ids blockSize change := by
  intro h
  obtain ⟨⟨result, ⟨encoded, hresult, hthrows⟩, bound, hrun⟩, -⟩ :=
    h [] 1 (.append [0] (by decide)) List.Pairwise.nil (by decide)
  have hencode := hrun (bound + 1) (Nat.le_succ bound)
  rw [hresult] at hencode
  obtain rfl := Except.ok.inj (Option.some.inj hencode)
  obtain ⟨e, hthrow⟩ := hthrows trivial
  exact absurd hthrow (by rintro ⟨⟩)

end VeloGraphX
