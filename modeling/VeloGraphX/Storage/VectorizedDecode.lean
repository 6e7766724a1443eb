import Mathlib
import VeloGraphX.Storage.SimdFriendly

/-!
# Vectorized decoding of fixed-width blocks

Three unpackers fill a buffer of deltas, eight lanes at a time where the instruction set allows it
and lane by lane for the rest. Each of them delivers the numbers that the scalar decoder reads.
-/

namespace VeloGraphX

open ByteStream CheckedMemory

namespace FixedWidth

/-- A little-endian register as lanes of a width. -/
def lanes (laneBytes count : ℕ) (register : List UInt8) : List ℕ :=
  (List.range count).map fun k => ofLowBytes ((register.drop (laneBytes * k)).take laneBytes)

/-- `unpack_scalar`: `start` is where `deltas` points into its buffer. -/
def unpackScalar (payload : List UInt8) (input count : ℕ) (laneBytes : UInt8) (start : ℕ)
    (deltas : List UInt32) : Except (Fault Exception) (List UInt32) :=
  countUp (fun i deltas => do
    let value ← orBytes payload (input + i * laneBytes.toNat) laneBytes.toNat
    store deltas (start + i) [value]) count 0 deltas

/-- `_mm_loadl_epi64`: the low half of a register. -/
def mmLoadlEpi64 (payload : List UInt8) (start : ℕ) : Except (Fault Exception) (List UInt8) :=
  (load payload start 8).map fun bytes => bytes ++ List.replicate 8 0

/-- `_mm_loadu_si128`. -/
def mmLoaduSi128 (payload : List UInt8) (start : ℕ) : Except (Fault Exception) (List UInt8) :=
  load payload start 16

/-- `_mm256_loadu_si256`, as eight lanes of 32 bits. -/
def mm256LoaduSi256 (payload : List UInt8) (start : ℕ) : Except (Fault Exception) (List UInt32) :=
  (load payload start 32).map fun register => (lanes 4 8 register).map UInt32.ofNat

/-- `_mm256_cvtepu8_epi32`: the low eight bytes, zero-extended. -/
def mm256Cvtepu8Epi32 (register : List UInt8) : List UInt32 :=
  (register.take 8).map UInt8.toUInt32

/-- `_mm256_cvtepu16_epi32`: eight words, zero-extended. -/
def mm256Cvtepu16Epi32 (register : List UInt8) : List UInt32 :=
  (lanes 2 8 register).map UInt32.ofNat

/-- The rest of a block that is less than a group, as both vector unpackers end. -/
def unpackRest (payload : List UInt8) (input count : ℕ) (laneBytes : UInt8)
    (state : ℕ × List UInt32) : Except (Fault Exception) (List UInt32) :=
  if state.1 < count then
    unpackScalar payload (input + state.1 * laneBytes.toNat) (count - state.1) laneBytes state.1
      state.2
  else .ok state.2

/-- The loops of `unpack_avx2`. -/
def avx2Groups (payload : List UInt8) (input count : ℕ) (laneBytes : UInt8)
    (deltas : List UInt32) : Except (Fault Exception) (ℕ × List UInt32) :=
  if laneBytes = 1 then
    groupLoop 8 count (fun i deltas => do
      let bytes ← mmLoadlEpi64 payload (input + i)
      store deltas i (mm256Cvtepu8Epi32 bytes)) 0 deltas
  else if laneBytes = 2 then
    groupLoop 8 count (fun i deltas => do
      let words ← mmLoaduSi128 payload (input + i * 2)
      store deltas i (mm256Cvtepu16Epi32 words)) 0 deltas
  else if laneBytes = 4 then
    groupLoop 8 count (fun i deltas => do
      let values ← mm256LoaduSi256 payload (input + i * 4)
      store deltas i values) 0 deltas
  else .ok (0, deltas)

/-- `unpack_avx2`. -/
def unpackAvx2 (payload : List UInt8) (input count : ℕ) (laneBytes : UInt8)
    (deltas : List UInt32) : Except (Fault Exception) (List UInt32) :=
  avx2Groups payload input count laneBytes deltas >>= unpackRest payload input count laneBytes

/-- `vld1_u8`. -/
def vld1U8 (payload : List UInt8) (start : ℕ) : Except (Fault Exception) (List UInt8) :=
  load payload start 8

/-- `vld1q_u16`. -/
def vld1qU16 (payload : List UInt8) (start : ℕ) : Except (Fault Exception) (List UInt16) :=
  (load payload start 16).map fun register => (lanes 2 8 register).map UInt16.ofNat

/-- `vld1q_u32`. -/
def vld1qU32 (payload : List UInt8) (start : ℕ) : Except (Fault Exception) (List UInt32) :=
  (load payload start 16).map fun register => (lanes 4 4 register).map UInt32.ofNat

/-- `vmovl_u8`. -/
def vmovlU8 (register : List UInt8) : List UInt16 := register.map UInt8.toUInt16

/-- `vmovl_u16`. -/
def vmovlU16 (register : List UInt16) : List UInt32 := register.map UInt16.toUInt32

/-- `vget_low_u16`. -/
def vgetLowU16 (register : List UInt16) : List UInt16 := register.take 4

/-- `vget_high_u16`. -/
def vgetHighU16 (register : List UInt16) : List UInt16 := register.drop 4

/-- The loops of `unpack_neon`. -/
def neonGroups (payload : List UInt8) (input count : ℕ) (laneBytes : UInt8)
    (deltas : List UInt32) : Except (Fault Exception) (ℕ × List UInt32) :=
  if laneBytes = 1 then
    groupLoop 8 count (fun i deltas => do
      let b ← vld1U8 payload (input + i)
      let w := vmovlU8 b
      let deltas ← store deltas i (vmovlU16 (vgetLowU16 w))
      store deltas (i + 4) (vmovlU16 (vgetHighU16 w))) 0 deltas
  else if laneBytes = 2 then
    groupLoop 8 count (fun i deltas => do
      let w ← vld1qU16 payload (input + i * 2)
      let deltas ← store deltas i (vmovlU16 (vgetLowU16 w))
      store deltas (i + 4) (vmovlU16 (vgetHighU16 w))) 0 deltas
  else if laneBytes = 4 then
    groupLoop 8 count (fun i deltas => do
      let low ← vld1qU32 payload (input + i * 4)
      let deltas ← store deltas i low
      let high ← vld1qU32 payload (input + (i + 4) * 4)
      store deltas (i + 4) high) 0 deltas
  else .ok (0, deltas)

/-- `unpack_neon`. -/
def unpackNeon (payload : List UInt8) (input count : ℕ) (laneBytes : UInt8)
    (deltas : List UInt32) : Except (Fault Exception) (List UInt32) :=
  neonGroups payload input count laneBytes deltas >>= unpackRest payload input count laneBytes

/-- `VectorDecodeBackend`. -/
inductive VectorDecodeBackend
  | scalar
  | avx2
  | neon
deriving DecidableEq, Repr

/-- The unpacker of a backend. -/
def unpack : VectorDecodeBackend → List UInt8 → ℕ → ℕ → UInt8 → List UInt32 →
    Except (Fault Exception) (List UInt32)
  | .scalar, payload, input, count, laneBytes, deltas =>
    unpackScalar payload input count laneBytes 0 deltas
  | .avx2, payload, input, count, laneBytes, deltas =>
    unpackAvx2 payload input count laneBytes deltas
  | .neon, payload, input, count, laneBytes, deltas =>
    unpackNeon payload input count laneBytes deltas

/-- The values of one block, all unpacked before they are added up by `accumulate_deltas`. -/
def vectorizedBlock (backend : VectorDecodeBackend) (encoded : SimdFriendlyAdjacency)
    (block : FixedWidthDeltaBlock) (out : List UInt32) :
    Except (Fault Exception) (List UInt32) := do
  let deltas ← unpack backend encoded.payload block.payloadOffset.toNat block.valueCount.toNat
    block.laneBytes (List.replicate block.valueCount.toNat 0)
  accumulate "vectorized fixed-width delta decode overflow" (readCell deltas) block.valueOffset
    block.valueCount.toNat out

/-- `simd_friendly_delta_decode_vectorized`. -/
def simdFriendlyDeltaDecodeVectorized (backend : VectorDecodeBackend)
    (encoded : SimdFriendlyAdjacency) : Except (Fault Exception) (List UInt32) :=
  decodeBlocks encoded (vectorizedBlock backend encoded) encoded.blocks 0 0
    (List.replicate encoded.valueCount.toNat 0)

section Unpacking

variable {payload : List UInt8} {input count i : ℕ} {deltas : List UInt32}

/-- Neighbouring lanes of the payload. -/
def laneValues (payload : List UInt8) (input laneBytes first count : ℕ) : List UInt32 :=
  (List.range' first count).map fun k => laneValue payload (input + k * laneBytes) laneBytes

/-- As many lanes as asked for. -/
@[simp] theorem length_laneValues (payload : List UInt8) (input laneBytes first count : ℕ) :
    (laneValues payload input laneBytes first count).length = count := by
  simp [laneValues]

/-- Lanes and the lanes behind them. -/
theorem laneValues_append (payload : List UInt8) (input laneBytes first count more : ℕ) :
    laneValues payload input laneBytes first count ++
        laneValues payload input laneBytes (first + count) more =
      laneValues payload input laneBytes first (count + more) := by
  rw [laneValues, laneValues, ← List.map_append, List.range'_append_1, laneValues]

/-- The first lanes. -/
theorem take_laneValues (payload : List UInt8) (input laneBytes first count more : ℕ) :
    (laneValues payload input laneBytes first (count + more)).take count =
      laneValues payload input laneBytes first count := by
  rw [← laneValues_append, List.take_left' (length_laneValues _ _ _ _ _)]

/-- The other lanes. -/
theorem drop_laneValues (payload : List UInt8) (input laneBytes first count more : ℕ) :
    (laneValues payload input laneBytes first (count + more)).drop count =
      laneValues payload input laneBytes (first + count) more := by
  rw [← laneValues_append, List.drop_left' (length_laneValues _ _ _ _ _)]

/-- Bytes are lanes of one byte. -/
theorem map_toUInt32 (register : List UInt8) :
    register.map UInt8.toUInt32 = (lanes 1 register.length register).map UInt32.ofNat := by
  refine List.ext_getElem (by simp [lanes]) fun k hk hk' => ?_
  rw [List.length_map] at hk
  have htake : (register.drop k).take 1 = [register[k]] := by
    rw [List.drop_eq_getElem_cons hk]
    rfl
  simp only [lanes, List.getElem_map, List.getElem_range, Nat.one_mul, htake]
  simp [ofLowBytes]

/-- Words are widened without loss. -/
theorem map_vmovl (n : ℕ) (register : List UInt8) :
    ((lanes 2 n register).map UInt16.ofNat).map UInt16.toUInt32 =
      (lanes 2 n register).map UInt32.ofNat := by
  rw [List.map_map]
  refine List.map_congr_left fun word hword => UInt32.toNat_inj.mp ?_
  obtain ⟨k, -, rfl⟩ := List.mem_map.mp hword
  have hlt := ofLowBytes_lt ((register.drop (2 * k)).take 2)
  have htwo : 256 ^ ((register.drop (2 * k)).take 2).length ≤ 256 ^ 2 :=
    Nat.pow_le_pow_right (by norm_num) (List.length_take_le _ _)
  rw [Function.comp_apply, UInt16.toNat_toUInt32, UInt16.toNat_ofNat', UInt32.toNat_ofNat']
  omega

/-- A buffer whose first cells hold the lanes. -/
structure Filled (payload : List UInt8) (input laneBytes count n : ℕ) (deltas : List UInt32) :
    Prop where
  lanes : laneValues payload input laneBytes 0 n <+: deltas
  length : deltas.length = count

variable {laneBytes : ℕ}

/-- Storing the next lanes. -/
theorem Filled.store (h : Filled payload input laneBytes count i deltas) (n : ℕ)
    (hroom : i + n ≤ count) :
    ∃ deltas', store deltas i (laneValues payload input laneBytes i n) =
        (.ok deltas' : Except (Fault Exception) (List UInt32)) ∧
      Filled payload input laneBytes count (i + n) deltas' := by
  obtain ⟨deltas', hstore, hprefix, hlength⟩ := store_behind (ε := Exception)
    (laneValues payload input laneBytes i n) h.lanes (by simp [h.length, hroom])
  rw [length_laneValues] at hstore
  have happend := laneValues_append payload input laneBytes 0 i n
  rw [Nat.zero_add] at happend
  exact ⟨deltas', hstore, happend ▸ hprefix, hlength.trans h.length⟩

/-- Storing the next eight lanes in two halves. -/
theorem Filled.storeHalves (h : Filled payload input laneBytes count i deltas)
    (hroom : i + 8 ≤ count) {values : List UInt32}
    (hvalues : values = laneValues payload input laneBytes i 8) :
    ∃ deltas', (CheckedMemory.store deltas i (values.take 4) >>= fun deltas =>
        CheckedMemory.store deltas (i + 4) (values.drop 4)) =
        (.ok deltas' : Except (Fault Exception) (List UInt32)) ∧
      Filled payload input laneBytes count (i + 8) deltas' := by
  rw [hvalues, take_laneValues payload input laneBytes i 4 4,
    drop_laneValues payload input laneBytes i 4 4]
  obtain ⟨low, hlow, hfilled⟩ := h.store 4 (by omega)
  obtain ⟨high, hhigh, hfilled'⟩ := hfilled.store 4 (by omega)
  rw [hlow]
  exact ⟨high, hhigh, hfilled'⟩

/-- Lane by lane. -/
theorem Filled.unpackScalar {lane : UInt8}
    (h : Filled payload input lane.toNat count i deltas) (n : ℕ) (hroom : i + n ≤ count)
    (hlane : lane.toNat ≤ 4) (hpayload : input + (i + n) * lane.toNat ≤ payload.length) :
    ∃ deltas', unpackScalar payload (input + i * lane.toNat) n lane i deltas = .ok deltas' ∧
      Filled payload input lane.toNat count (i + n) deltas' := by
  refine countUp_rule (fun k deltas => Filled payload input lane.toNat count (i + k) deltas) n 0
    (fun k deltas _ hk hfilled => ?_) h |>.imp fun deltas' hrun => ⟨hrun.1, ?_⟩
  · have hstart : input + i * lane.toNat + k * lane.toNat = input + (i + k) * lane.toNat := by ring
    have hlast : (i + k + 1) * lane.toNat ≤ (i + n) * lane.toNat :=
      Nat.mul_le_mul_right _ (by omega)
    rw [Nat.succ_mul] at hlast
    obtain ⟨deltas', hstore, hfilled'⟩ := hfilled.store 1 (by omega)
    refine ⟨deltas', ?_, hfilled'⟩
    rw [hstart, orBytes_eq hlane (by omega), ok_bind]
    exact hstore
  · rw [Nat.zero_add] at hrun
    exact hrun.2

/-- A register that is loaded holds the lanes. -/
theorem load_lanes (laneBytes n : ℕ) (hpayload : input + (i + n) * laneBytes ≤ payload.length) :
    ∃ register, load payload (input + i * laneBytes) (n * laneBytes) =
        (.ok register : Except (Fault Exception) (List UInt8)) ∧
      register.length = n * laneBytes ∧
      (lanes laneBytes n register).map UInt32.ofNat = laneValues payload input laneBytes i n := by
  rw [Nat.add_mul] at hpayload
  refine ⟨_, load_of_le (by omega), ?_, ?_⟩
  · rw [List.length_take, List.length_drop]
    omega
  · rw [lanes, laneValues, List.range'_eq_map_range, List.map_map, List.map_map]
    refine List.map_congr_left fun k hk => ?_
    have hlast : (k + 1) * laneBytes ≤ n * laneBytes :=
      Nat.mul_le_mul_right _ (List.mem_range.mp hk)
    rw [Nat.succ_mul, Nat.mul_comm k] at hlast
    simp only [Function.comp_apply, laneValue]
    rw [List.drop_take, List.take_take, List.drop_drop, min_eq_left (by omega), Nat.add_mul,
      Nat.mul_comm k, Nat.add_assoc]

/-- Whole groups, and the other lanes one by one. -/
theorem groups_then_scalar {lane : UInt8}
    {body : ℕ → List UInt32 → Except (Fault Exception) (List UInt32)}
    (hpayload : input + count * lane.toNat ≤ payload.length) (hlane : lane.toNat ≤ 4)
    (hbody : ∀ i deltas, i + 8 ≤ count → input + (i + 8) * lane.toNat ≤ payload.length →
      Filled payload input lane.toNat count i deltas →
      ∃ deltas', body i deltas = .ok deltas' ∧
        Filled payload input lane.toNat count (i + 8) deltas') :
    (groupLoop 8 count body 0 (List.replicate count 0) >>= unpackRest payload input count lane) =
      .ok (laneValues payload input lane.toNat 0 count) := by
  have hstart : Filled payload input lane.toNat count 0 (List.replicate count 0) :=
    ⟨List.nil_prefix, List.length_replicate⟩
  obtain ⟨i, deltas, hloop, hi, hfilled⟩ := groupLoop_rule
    (Filled payload input lane.toNat count) (fun i deltas hroom hfilled => by
      have hlast : (i + 8) * lane.toNat ≤ count * lane.toNat := Nat.mul_le_mul_right _ hroom
      exact hbody i deltas hroom (by omega) hfilled) (Nat.zero_le count) hstart
  have hwhole : ∀ deltas, Filled payload input lane.toNat count count deltas →
      deltas = laneValues payload input lane.toNat 0 count := fun deltas hfilled =>
    (hfilled.lanes.eq_of_length (by rw [length_laneValues, hfilled.length])).symm
  rw [hloop, ok_bind, unpackRest]
  split
  · obtain ⟨deltas', hscalar, hfilled'⟩ := hfilled.unpackScalar (count - i) (by omega) hlane
      (by rw [Nat.add_sub_cancel' hi]; exact hpayload)
    rw [Nat.add_sub_cancel' hi] at hfilled'
    rw [hscalar, hwhole deltas' hfilled']
  · obtain rfl : i = count := by omega
    rw [← hwhole deltas hfilled]

/-- The widths of a lane. -/
theorem lane_le_four {lane : UInt8} (hlane : lane = 1 ∨ lane = 2 ∨ lane = 4) :
    lane.toNat ≤ 4 := by
  rcases hlane with rfl | rfl | rfl <;> decide

/-- The portable unpacker fills the buffer with the lanes of the block. -/
theorem unpackScalar_eq {lane : UInt8} (hfour : lane.toNat ≤ 4)
    (hpayload : input + count * lane.toNat ≤ payload.length) :
    unpackScalar payload input count lane 0 (List.replicate count 0) =
      .ok (laneValues payload input lane.toNat 0 count) := by
  have hstart : Filled payload input lane.toNat count 0 (List.replicate count 0) :=
    ⟨List.nil_prefix, List.length_replicate⟩
  obtain ⟨deltas, hrun, hfilled⟩ := hstart.unpackScalar count (by omega) hfour
    (by rw [Nat.zero_add]; exact hpayload)
  rw [Nat.zero_add] at hfilled
  rw [Nat.zero_mul, Nat.add_zero] at hrun
  rw [hrun, hfilled.lanes.eq_of_length (by rw [length_laneValues, hfilled.length])]

/-- So does the one with eight lanes a register. -/
theorem unpackAvx2_eq {lane : UInt8} (hlane : lane = 1 ∨ lane = 2 ∨ lane = 4)
    (hpayload : input + count * lane.toNat ≤ payload.length) :
    unpackAvx2 payload input count lane (List.replicate count 0) =
      .ok (laneValues payload input lane.toNat 0 count) := by
  have hfour := lane_le_four hlane
  rw [unpackAvx2, avx2Groups]
  rcases hlane with rfl | rfl | rfl
  · rw [if_pos rfl]
    refine groups_then_scalar hpayload hfour fun i deltas hroom hbytes hfilled => ?_
    obtain ⟨register, hload, hlength, hvalues⟩ := load_lanes 1 8 hbytes
    rw [Nat.mul_one] at hload hlength
    have hlow : mm256Cvtepu8Epi32 (register ++ List.replicate 8 0) =
        laneValues payload input 1 i 8 := by
      rw [mm256Cvtepu8Epi32, List.take_left' hlength, map_toUInt32, hlength, hvalues]
    rw [mmLoadlEpi64, hload]
    change ∃ deltas', store deltas i (mm256Cvtepu8Epi32 (register ++ List.replicate 8 0)) = _ ∧ _
    rw [hlow]
    exact hfilled.store 8 hroom
  · rw [if_neg (by decide), if_pos rfl]
    refine groups_then_scalar hpayload hfour fun i deltas hroom hbytes hfilled => ?_
    obtain ⟨register, hload, -, hvalues⟩ := load_lanes 2 8 hbytes
    rw [mmLoaduSi128, hload, ok_bind, mm256Cvtepu16Epi32, hvalues]
    exact hfilled.store 8 hroom
  · rw [if_neg (by decide), if_neg (by decide), if_pos rfl]
    refine groups_then_scalar hpayload hfour fun i deltas hroom hbytes hfilled => ?_
    obtain ⟨register, hload, -, hvalues⟩ := load_lanes 4 8 hbytes
    rw [mm256LoaduSi256, hload]
    change ∃ deltas', store deltas i ((lanes 4 8 register).map UInt32.ofNat) = _ ∧ _
    rw [hvalues]
    exact hfilled.store 8 hroom

/-- So does the one that widens in halves. -/
theorem unpackNeon_eq {lane : UInt8} (hlane : lane = 1 ∨ lane = 2 ∨ lane = 4)
    (hpayload : input + count * lane.toNat ≤ payload.length) :
    unpackNeon payload input count lane (List.replicate count 0) =
      .ok (laneValues payload input lane.toNat 0 count) := by
  have hfour := lane_le_four hlane
  rw [unpackNeon, neonGroups]
  rcases hlane with rfl | rfl | rfl
  · rw [if_pos rfl]
    refine groups_then_scalar hpayload hfour fun i deltas hroom hbytes hfilled => ?_
    obtain ⟨register, hload, hlength, hvalues⟩ := load_lanes 1 8 hbytes
    rw [Nat.mul_one] at hload hlength
    have hwide : (register.map UInt8.toUInt16).map UInt16.toUInt32 =
        laneValues payload input 1 i 8 := by
      rw [← hvalues, ← hlength, ← map_toUInt32, List.map_map]
      rfl
    have hhalves := hfilled.storeHalves hroom hwide
    rw [← List.map_take, ← List.map_drop] at hhalves
    rw [vld1U8, hload, ok_bind]
    exact hhalves
  · rw [if_neg (by decide), if_pos rfl]
    refine groups_then_scalar hpayload hfour fun i deltas hroom hbytes hfilled => ?_
    obtain ⟨register, hload, -, hvalues⟩ := load_lanes 2 8 hbytes
    have hhalves := hfilled.storeHalves hroom ((map_vmovl 8 register).trans hvalues)
    rw [← List.map_take, ← List.map_drop] at hhalves
    rw [vld1qU16, hload]
    exact hhalves
  · rw [if_neg (by decide), if_neg (by decide), if_pos rfl]
    refine groups_then_scalar hpayload hfour fun i deltas hroom hbytes hfilled => ?_
    obtain ⟨low, hload, -, hlow⟩ := load_lanes 4 4 (show input + (i + 4) * 4 ≤ payload.length by
      change input + (i + 8) * 4 ≤ payload.length at hbytes
      omega)
    obtain ⟨high, hload', -, hhigh⟩ := load_lanes 4 4 (show input + (i + 4 + 4) * 4 ≤
      payload.length from hbytes)
    obtain ⟨first, hstore, hfilled'⟩ := hfilled.store 4 (by omega)
    obtain ⟨second, hstore', hfilled''⟩ := hfilled'.store 4 (by omega)
    refine ⟨second, ?_, hfilled''⟩
    rw [vld1qU32, hload, vld1qU32, hload']
    change (store deltas i ((lanes 4 4 low).map UInt32.ofNat) >>= fun deltas =>
      store deltas (i + 4) ((lanes 4 4 high).map UInt32.ofNat)) = _
    rw [hlow, hhigh]
    exact hstore.symm ▸ hstore'

/-- Every unpacker fills the buffer with the lanes of the block. -/
theorem unpack_eq (backend : VectorDecodeBackend) {lane : UInt8}
    (hlane : lane = 1 ∨ lane = 2 ∨ lane = 4)
    (hpayload : input + count * lane.toNat ≤ payload.length) :
    unpack backend payload input count lane (List.replicate count 0) =
      .ok (laneValues payload input lane.toNat 0 count) := by
  cases backend with
  | scalar => exact unpackScalar_eq (lane_le_four hlane) hpayload
  | avx2 => exact unpackAvx2_eq hlane hpayload
  | neon => exact unpackNeon_eq hlane hpayload

end Unpacking

section Decoders

variable {encoded : SimdFriendlyAdjacency} {block : FixedWidthDeltaBlock} {out : List UInt32}

/-- A block inside the payload and the output has the same outcome from every unpacker. -/
theorem Fits.vectorizedBlock_same (h : Fits encoded block) (hsized : Sized encoded)
    (backend : VectorDecodeBackend) (hlength : out.length = encoded.valueCount.toNat) :
    SameOutcome Exception.SameClass (scalarBlock encoded block out)
        (vectorizedBlock backend encoded block out) ∧
      ∀ out', scalarBlock encoded block out = .ok out' → out'.length = out.length := by
  have hvalueCount := hsized.valueCount
  have hvalues := h.values
  have hread : ∀ i < block.valueCount.toNat, ∃ d,
      readFixedWidthUint32 encoded.payload
          (block.payloadOffset + UInt64.ofNat i * block.laneBytes.toUInt64) block.laneBytes =
        .ok d ∧
      readCell (laneValues encoded.payload block.payloadOffset.toNat block.laneBytes.toNat 0
        block.valueCount.toNat) i = (.ok d : Except (Fault Exception) UInt32) := fun i hi => by
    refine ⟨_, h.read hsized hi, readCell_of_lt ?_⟩
    rw [laneValues, List.getElem?_map, List.getElem?_range' hi]
    simp
  constructor
  · rw [vectorizedBlock, unpack_eq backend h.lane h.payload, ok_bind]
    exact accumulate_same (by omega) (by omega) hread
  · intro out' hrun
    exact length_of_accumulate (by omega) (by omega)
      (fun i hi => (hread i hi).imp fun d hd => hd.1) hrun

/-- On every value whose sizes vectors can hold, the decoders return the same or throw alike. -/
theorem decoders_same (hsized : Sized encoded) (backend : VectorDecodeBackend) :
    SameOutcome Exception.SameClass (simdFriendlyDeltaDecode encoded)
      (simdFriendlyDeltaDecodeVectorized backend encoded) :=
  decodeBlocks_same hsized (fun _ _ hfits hlength => hfits.vectorizedBlock_same hsized backend
    hlength) encoded.blocks (Nat.zero_le _) List.length_replicate

end Decoders

end FixedWidth

end VeloGraphX
