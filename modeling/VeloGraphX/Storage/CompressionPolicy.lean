import Mathlib
import VeloGraphX.Storage.EncoderChecks

/-!
# Which coding of a row to use

A row is encoded both ways and the sizes are compared. The variable-byte code takes a byte for each
id and at most one more for every 128 ids that the row spans, so that is also a bound, up to the
overhead a caller allows, for the coding that is recommended.
-/

namespace VeloGraphX

open FuelLoop VariableByte FixedWidth

namespace CompressedAdjacency

/-- `CompressionCodec`. -/
inductive CompressionCodec
  | variableByte
  | simdFriendlyFixedWidth
deriving DecidableEq, Repr

/-- `CompressionRecommendation`. -/
structure CompressionRecommendation (D : Type) where
  codec : CompressionCodec := .variableByte
  variableByteBytes : ℕ := 0
  fixedWidthBytes : ℕ := 0
  vectorBackend : VectorDecodeBackend := .scalar
  fixedWidthOverheadRatio : D

section Sizes

variable {ids deltas : List UInt32} {bytes : List UInt8}

end Sizes

section Policy

variable {ids : List UInt32} {blockSize : UInt64} {backend : VectorDecodeBackend}

/-- The number of bytes of the coding that is recommended. -/
def CompressionRecommendation.bytes {D : Type} (r : CompressionRecommendation D) : ℕ :=
  match r.codec with
  | .variableByte => r.variableByteBytes
  | .simdFriendlyFixedWidth => r.fixedWidthBytes

/-- The coding that is recommended has the size that the recommendation tells, and the row is decoded
from it. -/
def CompressionRecommendation.Codes {D : Type} (r : CompressionRecommendation D)
    (ids : List UInt32) (blockSize : UInt64) : Prop :=
  match r.codec with
  | .variableByte => ∃ bytes, variableByteDeltaEncode ids = .ok bytes ∧ bytes.length = r.bytes ∧
      variableByteDeltaDecode bytes = .ok ids
  | .simdFriendlyFixedWidth => Returns (fun fuel => simdFriendlyDeltaEncode fuel ids blockSize)
      fun result => ∃ encoded, result = .ok encoded ∧ encoded.payload.length = r.bytes ∧
        simdFriendlyDeltaDecodeVectorized r.vectorBackend encoded = .ok ids

/-- What a recommendation promises of the coding it names: the row comes back, it takes at most the
allowed overhead over the variable-byte code and so over the number of ids and what they span, and
without vector instructions neither coding is smaller. -/
structure CompressionRecommendation.Sound (r : CompressionRecommendation ℚ) (ids : List UInt32)
    (blockSize : UInt64) (maxFixedWidthOverhead : ℚ) : Prop where
  codes : r.Codes ids blockSize
  overhead : (r.bytes : ℚ) ≤ maxFixedWidthOverhead * r.variableByteBytes
  span : (r.bytes : ℚ) ≤
    maxFixedWidthOverhead * (ids.length + ((ids.getLastD 0).toNat / 128 : ℕ))
  smallest : r.vectorBackend = .scalar → r.bytes = min r.variableByteBytes r.fixedWidthBytes

/-- The inputs a recommendation is made for: an ascending row, a positive block size and an allowed
overhead of at least one. -/
def Recommendable (ids : List UInt32) (blockSize : UInt64) (maxFixedWidthOverhead : ℚ) : Prop :=
  1 ≤ maxFixedWidthOverhead ∧ ids.Pairwise (· ≤ ·) ∧ 1 ≤ blockSize

/-- The answer of a call: a sound recommendation where one is made, and `std::invalid_argument` for
every other input. -/
structure Answers (backend : VectorDecodeBackend) (ids : List UInt32) (blockSize : UInt64)
    (maxFixedWidthOverhead : ℚ) (result : Except Exception (CompressionRecommendation ℚ)) :
    Prop where
  makes : Recommendable ids blockSize maxFixedWidthOverhead → ∃ r, result = .ok r ∧
    r.vectorBackend = backend ∧ r.Sound ids blockSize maxFixedWidthOverhead
  throws : ¬ Recommendable ids blockSize maxFixedWidthOverhead →
    ∃ what, result = .error (.invalidArgument what)

end Policy

end CompressedAdjacency

end VeloGraphX
