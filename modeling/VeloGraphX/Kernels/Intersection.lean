import Mathlib
import VeloGraphX.Types
import VeloGraphX.Lib.CheckedMemory
import VeloGraphX.Lib.SortedIntersection

/-!
# Intersection kernels

A merge, a binary search, a bitmap and three vector kernels count the common elements of two
ascending spans of ids. A vector kernel compares whole blocks all-to-all, drops the block that ends
first, or both, and leaves the rest to the merge. The dispatcher picks one of the six, and its
choice never changes the count.
-/

namespace VeloGraphX

open SortedList CheckedMemory

namespace Kernels

/-- `IntersectionKernel`. -/
inductive IntersectionKernel
  | scalarMerge
  | galloping
  | bitmap
  | avx2
  | avx512
  | neon
deriving DecidableEq, Repr

/-- `CpuFeatures`. -/
structure CpuFeatures where
  avx2 : Bool := false
  avx512f : Bool := false
  neon : Bool := false
deriving DecidableEq, Repr

/-- Which vector kernels the build contains. -/
structure BuildTarget where
  gnuX86 : Bool := false
  armNeon : Bool := false
deriving DecidableEq, Repr

/-- The loop of `scalar_intersection`. -/
def scalarLoop (a b : List VertexId) (i j count : ℕ) : ℕ :=
  if h : i < a.length ∧ j < b.length then
    have := h.1
    have := h.2
    if a[i] = b[j] then scalarLoop a b (i + 1) (j + 1) (count + 1)
    else if a[i] < b[j] then scalarLoop a b (i + 1) j count
    else scalarLoop a b i (j + 1) count
  else count
termination_by (a.length - i) + (b.length - j)

/-- `scalar_intersection`. -/
def scalarIntersection (a b : List VertexId) : ℕ := scalarLoop a b 0 0 0

/-- `galloping_intersection`. -/
def gallopingIntersection (smaller larger : List VertexId) : ℕ :=
  smaller.foldl (fun count value => count + if binarySearch larger value then 1 else 0) 0

/-- `bitmap[value >> 6u] |= 1 << (value & 63u)`. -/
def setBit (bitmap : List UInt64) (value : VertexId) : Except (Fault Empty) (List UInt64) := do
  let word ← readCell bitmap (value.val >>> 6)
  store bitmap (value.val >>> 6) [word ||| ((1 : UInt64) <<< UInt64.ofNat (value.val &&& 63))]

/-- `(bitmap[value >> 6u] >> (value & 63u)) & 1u`. -/
def getBit (bitmap : List UInt64) (value : VertexId) : Except (Fault Empty) UInt64 := do
  let word ← readCell bitmap (value.val >>> 6)
  pure ((word >>> UInt64.ofNat (value.val &&& 63)) &&& 1)

/-- `bitmap_intersection`. -/
def bitmapIntersection (a b : List VertexId) : Except (Fault Empty) ℕ :=
  match a.getLast?, b.getLast? with
  | some aBack, some bBack => do
    let maxValue := max aBack bBack
    let wordCount := maxValue.val / 64 + 1
    let bitmap ← a.foldlM setBit (List.replicate wordCount 0)
    b.foldlM (fun count value => do
      let bit ← getBit bitmap value
      pure (count + bit.toNat)) 0
  | _, _ => pure 0

/-- One vector of ids; the loop condition keeps it inside the span. -/
def block (ids : List VertexId) (start lanes : ℕ) : List VertexId := (ids.drop start).take lanes

/-- The loop of the vector kernels; `blockMatches` counts the lanes of a block of `a` that a block
of `b` has. -/
def blockLoop (lanes : ℕ) [NeZero lanes] (blockMatches : List VertexId → List VertexId → ℕ)
    (a b : List VertexId) (i j count : ℕ) : ℕ :=
  if h : i + lanes ≤ a.length ∧ j + lanes ≤ b.length then
    have hlanes : 0 < lanes := Nat.pos_of_ne_zero (NeZero.ne lanes)
    have : i + lanes - 1 < a.length := by omega
    have : j + lanes - 1 < b.length := by omega
    let aLast := a[i + lanes - 1]
    let bLast := b[j + lanes - 1]
    blockLoop lanes blockMatches a b (if aLast ≤ bLast then i + lanes else i)
      (if bLast ≤ aLast then j + lanes else j)
      (count + blockMatches (block a i lanes) (block b j lanes))
  else count + scalarIntersection (a.drop i) (b.drop j)
termination_by (a.length - i) + (b.length - j)
decreasing_by
  -- one of the two sides always moves on
  rcases le_total a[i + lanes - 1] b[j + lanes - 1] with hle | hle
  · rw [dif_pos hle]
    split <;> omega
  · rw [dif_pos hle]
    split <;> omega

/-- `std::popcount`. -/
def popcount (mask : UInt32) : ℕ := ((Finset.range 32).filter fun bit => mask.toNat.testBit bit).card

/-- The number whose bits are the answers for the lanes of a register. -/
def laneBits {α : Type} (p : α → Bool) : List α → ℕ
  | [] => 0
  | lane :: lanes => (p lane).toNat + 2 * laneBits p lanes

/-- `_mm256_set1_epi32`. -/
def mm256Set1Epi32 (value : VertexId) : List VertexId := List.replicate 8 value

/-- `_mm256_cmpeq_epi32`. -/
def mm256CmpeqEpi32 (va vb : List VertexId) : List VertexId :=
  List.zipWith (fun x y => if x = y then 0xFFFFFFFF else 0) va vb

/-- `_mm256_movemask_ps`: the sign bits of the lanes. -/
def mm256MovemaskPs (register : List VertexId) : UInt32 :=
  UInt32.ofNat (laneBits (fun lane => lane.val.testBit 31) register)

/-- `_mm512_set1_epi32`. -/
def mm512Set1Epi32 (value : VertexId) : List VertexId := List.replicate 16 value

/-- `_mm512_cmpeq_epu32_mask`. -/
def mm512CmpeqEpu32Mask (va vb : List VertexId) : UInt16 :=
  UInt16.ofNat (laneBits id (List.zipWith (fun x y => decide (x = y)) va vb))

/-- The loop that fills `matched_mask`. -/
def matchedMask (found : VertexId → Bool) (va : List VertexId) : UInt32 :=
  va.zipIdx.foldl (fun mask entry =>
    if found entry.1 then mask ||| ((1 : UInt32) <<< UInt32.ofNat entry.2) else mask) 0

/-- One block of `avx2_intersection_impl`. -/
def avx2Matches (va vb : List VertexId) : ℕ :=
  popcount (matchedMask
    (fun value => decide (mm256MovemaskPs (mm256CmpeqEpi32 (mm256Set1Epi32 value) vb) ≠ 0)) va)

/-- `avx2_intersection_impl`. -/
def avx2IntersectionImpl (a b : List VertexId) : ℕ := blockLoop 8 avx2Matches a b 0 0 0

/-- One block of `avx512_intersection_impl`. -/
def avx512Matches (va vb : List VertexId) : ℕ :=
  popcount (matchedMask
    (fun value => decide (mm512CmpeqEpu32Mask (mm512Set1Epi32 value) vb ≠ 0)) va)

/-- `avx512_intersection_impl`. -/
def avx512IntersectionImpl (a b : List VertexId) : ℕ := blockLoop 16 avx512Matches a b 0 0 0

/-- `vdupq_n_u32`. -/
def vdupqNU32 (value : VertexId) : List VertexId := List.replicate 4 value

/-- `vceqq_u32`. -/
def vceqqU32 (va vb : List VertexId) : List VertexId :=
  List.zipWith (fun x y => if x = y then 0xFFFFFFFF else 0) va vb

/-- Sums of neighbouring lanes, which wrap around. -/
def pairSums : List VertexId → List VertexId
  | x :: y :: rest => (x + y) :: pairSums rest
  | _ => []

/-- `vpaddq_u32`. -/
def vpaddqU32 (va vb : List VertexId) : List VertexId := pairSums va ++ pairSums vb

/-- `vgetq_lane_u32`. -/
def vgetqLaneU32 (register : List VertexId) (lane : ℕ) : VertexId := register.getD lane 0

/-- One block of `neon_intersection`. -/
def neonMatches (va vb : List VertexId) : ℕ :=
  va.foldl (fun count value =>
    let eq := vceqqU32 (vdupqNU32 value) vb
    let pair := vpaddqU32 eq eq
    let reduced := vpaddqU32 pair pair
    if vgetqLaneU32 reduced 0 ≠ 0 then count + 1 else count) 0

variable (build : BuildTarget) (features : CpuFeatures) (a b : List VertexId)

/-- `avx2_intersection`; `features` is what `detect_cpu_features` answers. -/
def avx2Intersection : ℕ :=
  if build.gnuX86 && features.avx2 then avx2IntersectionImpl a b else scalarIntersection a b

/-- `avx512_intersection`. -/
def avx512Intersection : ℕ :=
  if build.gnuX86 && features.avx512f then avx512IntersectionImpl a b else scalarIntersection a b

/-- `neon_intersection`. -/
def neonIntersection : ℕ :=
  if build.armNeon then blockLoop 4 neonMatches a b 0 0 0 else scalarIntersection a b

/-- `bitmap_is_efficient`. -/
def bitmapIsEfficient : Bool :=
  match a.getLast?, b.getLast? with
  | some aBack, some bBack =>
    let combined := addU64 a.length b.length
    decide (1024 ≤ combined) && decide ((max aBack bBack).val ≤ combined * 8 % 2 ^ 64)
  | _, _ => false

/-- `select_intersection`. -/
def selectIntersection : IntersectionKernel :=
  let minSize := min a.length b.length
  let maxSize := max a.length b.length
  if minSize = 0 then .scalarMerge
  else if bitmapIsEfficient a b then .bitmap
  else if 16 * minSize % 2 ^ 64 < maxSize then .galloping
  else if features.avx512f && decide (64 ≤ minSize) then .avx512
  else if features.avx2 && decide (32 ≤ minSize) then .avx2
  else if features.neon && decide (32 ≤ minSize) then .neon
  else .scalarMerge

/-- `adaptive_intersection`. -/
def adaptiveIntersection : Except (Fault Empty) ℕ :=
  match selectIntersection features a b with
  | .galloping =>
    pure (if a.length ≤ b.length then gallopingIntersection a b else gallopingIntersection b a)
  | .bitmap => bitmapIntersection a b
  | .avx2 => pure (avx2Intersection build features a b)
  | .avx512 => pure (avx512Intersection build features a b)
  | .neon => pure (neonIntersection build a b)
  | .scalarMerge => pure (scalarIntersection a b)

section Counts

variable {a b}

/-- An ascending span's head precedes the rest. -/
theorem getElem_le_of_mem_drop (ha : Ascending id a) {i : ℕ} (hi : i < a.length) {x : VertexId}
    (hx : x ∈ a.drop i) : a[i] ≤ x := by
  rw [List.drop_eq_getElem_cons hi] at hx
  rcases List.mem_cons.mp hx with rfl | hx
  · exact le_rfl
  · exact le_of_lt (lt_of_mem_tail ha hi hx)

/-- The merge counts the common elements of what is left of the two spans. -/
theorem scalarLoop_eq (ha : Ascending id a) (hb : Ascending id b) (i j count : ℕ) :
    scalarLoop a b i j count = count + common (a.drop i) (b.drop j) := by
  fun_induction scalarLoop a b i j count with
  | case1 i j count h hi hj heq ih =>
    rw [ih, List.drop_eq_getElem_cons hi, List.drop_eq_getElem_cons hj]
    have hsplit : common ([a[i]] ++ a.drop (i + 1)) ([b[j]] ++ b.drop (j + 1)) =
        common [a[i]] [b[j]] + common (a.drop (i + 1)) (b.drop (j + 1)) := by
      refine common_drop_both (fun x hx y hy => ?_) (fun x hx y hy => ?_)
      · rw [List.mem_singleton.mp hx, heq]
        exact lt_of_mem_tail hb hj hy
      · rw [List.mem_singleton.mp hy, ← heq]
        exact lt_of_mem_tail ha hi hx
    have hone : common [a[i]] [b[j]] = 1 := by simp [common, heq]
    rw [hone] at hsplit
    change _ = count + common ([a[i]] ++ a.drop (i + 1)) ([b[j]] ++ b.drop (j + 1))
    omega
  | case2 i j count h hi hj hne hlt ih =>
    rw [ih, List.drop_eq_getElem_cons hi]
    have hsplit : common ([a[i]] ++ a.drop (i + 1)) ([] ++ b.drop j) =
        common [a[i]] [] + common (a.drop (i + 1)) ([] ++ b.drop j) := by
      refine common_drop_left fun x hx y hy => ?_
      rw [List.mem_singleton.mp hx]
      exact hlt.trans_le (getElem_le_of_mem_drop hb hj hy)
    rw [common_nil_right, Nat.zero_add] at hsplit
    exact congrArg (count + ·) hsplit.symm
  | case3 i j count h hi hj hne hlt ih =>
    have hgt : b[j] < a[i] := lt_of_le_of_ne (not_lt.mp hlt) (Ne.symm hne)
    rw [ih, List.drop_eq_getElem_cons hj]
    have hb' : Ascending id ([b[j]] ++ b.drop (j + 1)) := by
      rw [List.singleton_append, ← List.drop_eq_getElem_cons hj]
      exact hb.sublist (List.drop_sublist _ _)
    have hsplit : common ([] ++ a.drop i) ([b[j]] ++ b.drop (j + 1)) =
        common [] [b[j]] + common ([] ++ a.drop i) (b.drop (j + 1)) := by
      refine common_drop_right (ha.sublist (List.drop_sublist _ _)) hb' fun x hx y hy => ?_
      rw [List.mem_singleton.mp hy]
      exact hgt.trans_le (getElem_le_of_mem_drop ha hi hx)
    have hzero : common [] [b[j]] = 0 := rfl
    rw [hzero, Nat.zero_add] at hsplit
    exact congrArg (count + ·) hsplit.symm
  | case4 i j count h =>
    rcases not_and_or.mp h with hi | hj
    · rw [List.drop_eq_nil_of_le (not_lt.mp hi)]
      rfl
    · rw [List.drop_eq_nil_of_le (not_lt.mp hj), common_nil_right, Nat.add_zero]

/-- The merge counts the common elements. -/
theorem scalarIntersection_eq (ha : Ascending id a) (hb : Ascending id b) :
    scalarIntersection a b = common a b := by
  rw [scalarIntersection, scalarLoop_eq ha hb, List.drop_zero, List.drop_zero, Nat.zero_add]

/-- A loop that counts the values it finds. -/
theorem foldl_count (p : VertexId → Bool) (list : List VertexId) (count : ℕ) :
    list.foldl (fun count value => count + if p value then 1 else 0) count =
      count + list.countP p := by
  induction list generalizing count with
  | nil => rfl
  | cons value rest ih =>
    rw [List.foldl_cons, ih, List.countP_cons]
    omega

/-- So does the search for each element of the first span in the second. -/
theorem gallopingIntersection_eq (hb : Ascending id b) (a : List VertexId) :
    gallopingIntersection a b = common a b := by
  have hsearch : binarySearch b = fun value => decide (value ∈ b) :=
    funext fun value => binarySearch_eq_decide hb value
  rw [gallopingIntersection, hsearch, foldl_count, Nat.zero_add, common]

/-- A vector kernel counts the common elements when its blocks do. -/
theorem blockLoop_eq (lanes : ℕ) [NeZero lanes]
    {blockMatches : List VertexId → List VertexId → ℕ}
    (hmatches : ∀ va vb : List VertexId, va.length = lanes → vb.length = lanes →
      blockMatches va vb = common va vb)
    (ha : Ascending id a) (hb : Ascending id b) (i j count : ℕ) :
    blockLoop lanes blockMatches a b i j count = count + common (a.drop i) (b.drop j) := by
  have hlanes : 0 < lanes := Nat.pos_of_ne_zero (NeZero.ne lanes)
  fun_induction blockLoop lanes blockMatches a b i j count with
  | case1 i j count h _ hi hj aLast bLast ih =>
    have hblock : blockMatches (block a i lanes) (block b j lanes) =
        common (block a i lanes) (block b j lanes) := by
      refine hmatches _ _ ?_ ?_ <;> rw [block, List.length_take, List.length_drop] <;> omega
    simp only [dite_eq_ite] at ih
    rw [ih, hblock, Nat.add_assoc]
    congr 1
    have hsplit : block a i lanes ++ a.drop (i + lanes) = a.drop i := block_append_rest a i lanes
    have hsplit' : block b j lanes ++ b.drop (j + lanes) = b.drop j := block_append_rest b j lanes
    have ha' : Ascending id (block a i lanes ++ a.drop (i + lanes)) :=
      hsplit ▸ ha.sublist (List.drop_sublist _ _)
    have hb' : Ascending id (block b j lanes ++ b.drop (j + lanes)) :=
      hsplit' ▸ hb.sublist (List.drop_sublist _ _)
    have hfront : aLast ≤ bLast → ∀ x ∈ block a i lanes, ∀ y ∈ b.drop (j + lanes), x < y :=
      fun hle x hx y hy =>
        ((le_of_mem_block ha hi hx).trans hle).trans_lt (lt_of_mem_rest hb hj hlanes hy)
    have hback : bLast ≤ aLast → ∀ x ∈ a.drop (i + lanes), ∀ y ∈ block b j lanes, y < x :=
      fun hle x hx y hy =>
        ((le_of_mem_block hb hj hy).trans hle).trans_lt (lt_of_mem_rest ha hi hlanes hx)
    rw [← hsplit, ← hsplit']
    rcases lt_trichotomy aLast bLast with hlt | heq | hgt
    · rw [if_pos hlt.le, if_neg (not_le.mpr hlt), common_drop_left (hfront hlt.le), hsplit']
    · rw [if_pos heq.le, if_pos heq.ge, common_drop_both (hfront heq.le) (hback heq.ge)]
    · rw [if_neg (not_le.mpr hgt), if_pos hgt.le, common_drop_right ha' hb' (hback hgt.le), hsplit]
  | case2 i j count h =>
    rw [scalarIntersection_eq (ha.sublist (List.drop_sublist _ _))
      (hb.sublist (List.drop_sublist _ _))]

end Counts

section Registers

/-- A mask is empty when no lane answers. -/
theorem laneBits_eq_zero_iff {α : Type} (p : α → Bool) (register : List α) :
    laneBits p register = 0 ↔ ∀ lane ∈ register, p lane = false := by
  induction register with
  | nil => simp [laneBits]
  | cons lane rest ih =>
    rw [List.forall_mem_cons, ← ih, laneBits, Nat.add_eq_zero_iff, Bool.toNat_eq_zero,
      Nat.mul_eq_zero, or_iff_right two_ne_zero]

/-- A mask has no bit beyond the lanes. -/
theorem laneBits_lt {α : Type} (p : α → Bool) (register : List α) :
    laneBits p register < 2 ^ register.length := by
  induction register with
  | nil => simp [laneBits]
  | cons lane rest ih =>
    have hbit := Bool.toNat_le (p lane)
    rw [laneBits, List.length_cons, pow_succ]
    omega

/-- Comparing one value, in every lane, with a register. -/
theorem zipWith_replicate_eq_map {α β γ : Type} (f : α → β → γ) (value : α) (register : List β) :
    List.zipWith f (List.replicate register.length value) register = register.map (f value) := by
  induction register with
  | nil => rfl
  | cons lane rest ih => rw [List.length_cons, List.replicate_succ, List.zipWith_cons_cons, ih,
      List.map_cons]

variable {va vb : List VertexId}

/-- The AVX2 comparison finds the value. -/
theorem avx2_found (hvb : vb.length = 8) (value : VertexId) :
    mm256MovemaskPs (mm256CmpeqEpi32 (mm256Set1Epi32 value) vb) ≠ 0 ↔ value ∈ vb := by
  have hlanes : mm256CmpeqEpi32 (mm256Set1Epi32 value) vb =
      vb.map fun y => if value = y then 0xFFFFFFFF else 0 := by
    rw [mm256CmpeqEpi32, mm256Set1Epi32, ← hvb, zipWith_replicate_eq_map]
  have hlt := laneBits_lt (fun lane : VertexId => lane.val.testBit 31)
    (vb.map fun y => if value = y then 0xFFFFFFFF else 0)
  rw [List.length_map, hvb] at hlt
  rw [Ne, ← UInt32.toNat_inj, mm256MovemaskPs, hlanes, UInt32.toNat_ofNat',
    Nat.mod_eq_of_lt (by omega), UInt32.toNat_zero, laneBits_eq_zero_iff, List.forall_mem_map]
  have hlane : ∀ y, (if value = y then 0xFFFFFFFF else 0 : VertexId).val.testBit 31 =
      decide (value = y) := by
    intro y
    by_cases heq : value = y
    · rw [if_pos heq, decide_eq_true heq]
      decide
    · rw [if_neg heq, decide_eq_false heq]
      decide
  simp [hlane]

/-- So does the AVX-512 comparison. -/
theorem avx512_found (hvb : vb.length = 16) (value : VertexId) :
    mm512CmpeqEpu32Mask (mm512Set1Epi32 value) vb ≠ 0 ↔ value ∈ vb := by
  have hlt := laneBits_lt id (vb.map fun y => decide (value = y))
  rw [List.length_map, hvb] at hlt
  rw [Ne, ← UInt16.toNat_inj, mm512CmpeqEpu32Mask, mm512Set1Epi32, ← hvb, zipWith_replicate_eq_map,
    UInt16.toNat_ofNat', Nat.mod_eq_of_lt (by omega), UInt16.toNat_zero, laneBits_eq_zero_iff,
    List.forall_mem_map]
  simp

/-- The NEON reduction is nonzero when a lane is equal, although its sums wrap around. -/
theorem neon_found (hvb : vb.length = 4) (value : VertexId) :
    vgetqLaneU32 (vpaddqU32 (vpaddqU32 (vceqqU32 (vdupqNU32 value) vb)
        (vceqqU32 (vdupqNU32 value) vb)) (vpaddqU32 (vceqqU32 (vdupqNU32 value) vb)
        (vceqqU32 (vdupqNU32 value) vb))) 0 ≠ 0 ↔ value ∈ vb := by
  match vb, hvb with
  | [w, x, y, z], _ =>
    have hsum : vgetqLaneU32 (vpaddqU32 (vpaddqU32 (vceqqU32 (vdupqNU32 value) [w, x, y, z])
        (vceqqU32 (vdupqNU32 value) [w, x, y, z])) (vpaddqU32
        (vceqqU32 (vdupqNU32 value) [w, x, y, z]) (vceqqU32 (vdupqNU32 value) [w, x, y, z]))) 0 =
        ((if value = w then 0xFFFFFFFF else 0) + (if value = x then 0xFFFFFFFF else 0) +
          ((if value = y then 0xFFFFFFFF else 0) + (if value = z then 0xFFFFFFFF else 0))) := rfl
    have hlanes : ∀ p q r s : Bool, ((if p then 0xFFFFFFFF else 0) +
        (if q then 0xFFFFFFFF else 0) + ((if r then 0xFFFFFFFF else 0) +
          (if s then 0xFFFFFFFF else 0)) : VertexId) ≠ 0 ↔
        p = true ∨ q = true ∨ r = true ∨ s = true := by decide
    have hvalue := hlanes (decide (value = w)) (decide (value = x)) (decide (value = y))
      (decide (value = z))
    simp only [decide_eq_true_eq] at hvalue
    rw [hsum, hvalue]
    simp only [List.mem_cons, List.not_mem_nil, or_false]

/-- One more bit in a mask. -/
theorem popcount_or_shift {mask : UInt32} {bit : ℕ} (hbit : bit < 32) (hmask : mask.toNat < 2 ^ bit) :
    popcount (mask ||| ((1 : UInt32) <<< UInt32.ofNat bit)) = popcount mask + 1 ∧
      (mask ||| ((1 : UInt32) <<< UInt32.ofNat bit)).toNat < 2 ^ (bit + 1) := by
  have hpow : 2 ^ bit < 2 ^ 32 := Nat.pow_lt_pow_right one_lt_two hbit
  have htoNat : (mask ||| ((1 : UInt32) <<< UInt32.ofNat bit)).toNat = mask.toNat ||| 2 ^ bit := by
    rw [UInt32.toNat_or, UInt32.toNat_shiftLeft, UInt32.toNat_ofNat',
      Nat.mod_eq_of_lt (show bit < 2 ^ 32 by omega), Nat.mod_eq_of_lt hbit, UInt32.toNat_one,
      Nat.one_shiftLeft, Nat.mod_eq_of_lt hpow]
  have hnot : bit ∉ (Finset.range 32).filter fun k => mask.toNat.testBit k := by
    rw [Finset.mem_filter, Nat.testBit_lt_two_pow hmask]
    simp
  have hinsert : ((Finset.range 32).filter fun k => (mask.toNat ||| 2 ^ bit).testBit k) =
      insert bit ((Finset.range 32).filter fun k => mask.toNat.testBit k) := by
    ext k
    rw [Finset.mem_insert, Finset.mem_filter, Finset.mem_filter, Nat.testBit_or,
      Nat.testBit_two_pow, Bool.or_eq_true, decide_eq_true_eq, Finset.mem_range]
    constructor
    · rintro ⟨hk, hold | hnew⟩
      · exact Or.inr ⟨hk, hold⟩
      · exact Or.inl hnew.symm
    · rintro (rfl | ⟨hk, hold⟩)
      · exact ⟨hbit, Or.inr rfl⟩
      · exact ⟨hk, Or.inl hold⟩
  refine ⟨?_, ?_⟩
  · rw [popcount, htoNat, hinsert, Finset.card_insert_of_notMem hnot, popcount]
  · rw [htoNat]
    exact Nat.or_lt_two_pow (hmask.trans (Nat.pow_lt_pow_right one_lt_two (Nat.lt_succ_self bit)))
      (Nat.pow_lt_pow_right one_lt_two (Nat.lt_succ_self bit))

/-- Each lane of the mask stands for one value of the block that was found. -/
theorem popcount_matchedMask (found : VertexId → Bool) (hva : va.length ≤ 32) :
    popcount (matchedMask found va) = va.countP found := by
  have hfold : ∀ (values : List VertexId) (lane : ℕ) (mask : UInt32), lane + values.length ≤ 32 →
      mask.toNat < 2 ^ lane →
      popcount ((values.zipIdx lane).foldl (fun mask entry =>
        if found entry.1 then mask ||| ((1 : UInt32) <<< UInt32.ofNat entry.2) else mask) mask) =
        popcount mask + values.countP found := by
    intro values
    induction values with
    | nil => intro lane mask _ _; rfl
    | cons value rest ih =>
      intro lane mask hlanes hmask
      rw [List.length_cons] at hlanes
      have hwider : mask.toNat < 2 ^ (lane + 1) :=
        hmask.trans (Nat.pow_lt_pow_right one_lt_two (Nat.lt_succ_self lane))
      rw [List.zipIdx_cons, List.foldl_cons, List.countP_cons]
      by_cases hvalue : found value = true
      · obtain ⟨hcount, hlt⟩ := popcount_or_shift (by omega) hmask
        rw [if_pos hvalue, if_pos hvalue, ih (lane + 1) _ (by omega) hlt, hcount]
        omega
      · rw [if_neg hvalue, if_neg hvalue, ih (lane + 1) _ (by omega) hwider, Nat.add_zero]
  have hzero : popcount 0 = 0 := by decide
  rw [matchedMask, hfold va 0 0 (by omega) (by decide), hzero, Nat.zero_add]

/-- A block of the AVX2 kernel counts its common elements. -/
theorem avx2Matches_eq (hva : va.length = 8) (hvb : vb.length = 8) :
    avx2Matches va vb = common va vb := by
  rw [avx2Matches, popcount_matchedMask _ (by omega)]
  exact List.countP_congr fun value _ => by simp only [avx2_found hvb]

/-- A block of the AVX-512 kernel counts its common elements. -/
theorem avx512Matches_eq (hva : va.length = 16) (hvb : vb.length = 16) :
    avx512Matches va vb = common va vb := by
  rw [avx512Matches, popcount_matchedMask _ (by omega)]
  exact List.countP_congr fun value _ => by simp only [avx512_found hvb]

/-- A block of the NEON kernel counts its common elements. -/
theorem neonMatches_eq (hvb : vb.length = 4) (va : List VertexId) :
    neonMatches va vb = common va vb := by
  have hfold : neonMatches va vb =
      va.foldl (fun count value => count + if decide (value ∈ vb) then 1 else 0) 0 := by
    refine List.foldl_ext _ _ _ fun count value _ => ?_
    by_cases hmem : value ∈ vb
    · rw [if_pos ((neon_found hvb value).mpr hmem), if_pos (decide_eq_true hmem)]
    · rw [if_neg (mt (neon_found hvb value).mp hmem), if_neg (by simpa using hmem), Nat.add_zero]
  rw [hfold, foldl_count (fun value => decide (value ∈ vb)), Nat.zero_add, common]

end Registers

section Bitmap

/-- The bits that are set stand for the ids marked so far. -/
def Marks (bitmap : List UInt64) (marked : List VertexId) : Prop :=
  ∀ v : VertexId, v.val / 64 < bitmap.length → ∃ word, bitmap[v.val / 64]? = some word ∧
    word.toNat.testBit (v.val % 64) = decide (v ∈ marked)

/-- Where the bit of an id is. -/
theorem bit_position (v : VertexId) : v.val >>> 6 = v.val / 64 ∧ v.val &&& 63 = v.val % 64 :=
  ⟨Nat.shiftRight_eq_div_pow v.val 6, Nat.and_two_pow_sub_one_eq_mod v.val 6⟩

/-- The word with one bit. -/
theorem toNat_oneShift (v : VertexId) :
    ((1 : UInt64) <<< UInt64.ofNat (v.val % 64)).toNat = 2 ^ (v.val % 64) := by
  have hbit : v.val % 64 < 64 := Nat.mod_lt _ (by norm_num)
  rw [UInt64.toNat_shiftLeft, UInt64.toNat_ofNat', Nat.mod_eq_of_lt (show v.val % 64 < 2 ^ 64 by omega),
    Nat.mod_eq_of_lt hbit, UInt64.toNat_one, Nat.one_shiftLeft,
    Nat.mod_eq_of_lt (Nat.pow_lt_pow_right one_lt_two hbit)]

variable {bitmap : List UInt64} {marked : List VertexId} {value : VertexId}

/-- An id in range is marked. -/
theorem Marks.setBit (h : Marks bitmap marked) (hvalue : value.val / 64 < bitmap.length) :
    ∃ bitmap', setBit bitmap value = .ok bitmap' ∧ bitmap'.length = bitmap.length ∧
      Marks bitmap' (value :: marked) := by
  obtain ⟨word, hword, hbits⟩ := h value hvalue
  obtain ⟨hindex, hbit⟩ := bit_position value
  refine ⟨bitmap.set (value.val / 64) (word ||| ((1 : UInt64) <<< UInt64.ofNat (value.val % 64))), ?_,
    List.length_set, fun v hv => ?_⟩
  · rw [Kernels.setBit, hindex, hbit, readCell_of_lt hword, ok_bind, store,
      if_pos (by rw [List.length_singleton]; omega), List.set_eq_take_append_cons_drop, if_pos hvalue,
      List.append_assoc]
    rfl
  · rw [List.length_set] at hv
    by_cases hsame : value.val / 64 = v.val / 64
    · refine ⟨_, by rw [← hsame, List.getElem?_set_self hvalue], ?_⟩
      obtain ⟨word', hword', hbits'⟩ := h v hv
      obtain rfl : word = word' := by
        rw [← hsame, hword] at hword'
        exact Option.some.inj hword'
      have hposition : value.val % 64 = v.val % 64 ↔ v = value := by
        rw [Fin.ext_iff]
        omega
      rw [UInt64.toNat_or, toNat_oneShift, Nat.testBit_or, hbits', Nat.testBit_two_pow]
      simp only [hposition, List.mem_cons, Bool.decide_or, Bool.or_comm]
    · obtain ⟨word', hword', hbits'⟩ := h v hv
      refine ⟨word', by rw [List.getElem?_set_ne hsame, hword'], ?_⟩
      have hne : v ≠ value := fun heq => hsame (heq ▸ rfl)
      rw [hbits']
      simp [hne]

/-- The bit of an id in range tells whether it is marked. -/
theorem Marks.getBit (h : Marks bitmap marked) (hvalue : value.val / 64 < bitmap.length) :
    ∃ bit, getBit bitmap value = .ok bit ∧ bit.toNat = if value ∈ marked then 1 else 0 := by
  obtain ⟨word, hword, hbits⟩ := h value hvalue
  obtain ⟨hindex, hbit⟩ := bit_position value
  refine ⟨_, by rw [Kernels.getBit, hindex, hbit, readCell_of_lt hword, ok_bind]; rfl, ?_⟩
  have hshift : value.val % 64 < 64 := Nat.mod_lt _ (by norm_num)
  rw [UInt64.toNat_and, UInt64.toNat_shiftRight, UInt64.toNat_ofNat',
    Nat.mod_eq_of_lt (show value.val % 64 < 2 ^ 64 by omega), Nat.mod_eq_of_lt hshift, UInt64.toNat_one,
    Nat.and_one_is_mod, Nat.shiftRight_eq_div_pow, ← Nat.toNat_testBit, hbits]
  by_cases hmem : value ∈ marked <;> simp [hmem]

/-- The first loop marks its ids. -/
theorem Marks.foldlM_setBit (ids : List VertexId) (h : Marks bitmap marked)
    (hids : ∀ v ∈ ids, v.val / 64 < bitmap.length) :
    ∃ bitmap', ids.foldlM Kernels.setBit bitmap = .ok bitmap' ∧ bitmap'.length = bitmap.length ∧
      Marks bitmap' (ids.reverse ++ marked) := by
  induction ids generalizing bitmap marked with
  | nil => exact ⟨bitmap, rfl, rfl, h⟩
  | cons v rest ih =>
    obtain ⟨next, hnext, hlength, hmarks⟩ := h.setBit (hids v List.mem_cons_self)
    obtain ⟨last, hlast, hlength', hmarks'⟩ := ih hmarks fun w hw => by
      rw [hlength]
      exact hids w (List.mem_cons_of_mem v hw)
    refine ⟨last, ?_, hlength'.trans hlength, ?_⟩
    · rw [List.foldlM_cons, hnext, ok_bind, hlast]
    · rw [List.reverse_cons, List.append_assoc]
      exact hmarks'

/-- The second loop counts the marked ones among its ids. -/
theorem Marks.foldlM_getBit (h : Marks bitmap marked) (ids : List VertexId) (count : ℕ)
    (hids : ∀ v ∈ ids, v.val / 64 < bitmap.length) :
    ids.foldlM (fun count value => do
      let bit ← Kernels.getBit bitmap value
      pure (count + bit.toNat)) count = .ok (count + common ids marked) := by
  induction ids generalizing count with
  | nil => rfl
  | cons v rest ih =>
    obtain ⟨bit, hbit, hcount⟩ := h.getBit (hids v List.mem_cons_self)
    rw [List.foldlM_cons, hbit, ok_bind]
    change rest.foldlM _ (count + bit.toNat) = _
    rw [ih (count + bit.toNat) fun w hw => hids w (List.mem_cons_of_mem v hw), hcount, common, common,
      List.countP_cons, Nat.add_assoc]
    simp only [decide_eq_true_eq, Nat.add_comm]

/-- The bitmap has a word for every id of either span. -/
theorem word_of_mem {ids : List VertexId} (hids : Ascending id ids) {back bound v : VertexId}
    (hback : ids.getLast? = some back) (hbound : back ≤ bound) (hv : v ∈ ids) :
    v.val / 64 < bound.val / 64 + 1 := by
  have hle : v ≤ back := by
    obtain ⟨front, rfl⟩ := List.getLast?_eq_some_iff.mp hback
    rcases List.mem_append.mp hv with hfront | hlast
    · exact le_of_lt ((List.pairwise_append.mp hids).2.2 v hfront back (List.mem_singleton_self back))
    · exact (List.mem_singleton.mp hlast).le
  have hbound' : v.val ≤ bound.val := hle.trans hbound
  exact Nat.lt_succ_of_le (Nat.div_le_div_right hbound')

/-- The bitmap kernel stays inside its words and counts the common elements. -/
theorem bitmapIntersection_eq {a b : List VertexId} (ha : Ascending id a) (hb : Ascending id b) :
    bitmapIntersection a b = .ok (common a b) := by
  unfold bitmapIntersection
  cases hlast : a.getLast? with
  | none =>
    rw [List.getLast?_eq_none_iff.mp hlast]
    rfl
  | some aBack =>
    cases hlast' : b.getLast? with
    | none =>
      rw [List.getLast?_eq_none_iff.mp hlast', common_nil_right]
      rfl
    | some bBack =>
      dsimp only
      have hempty : Marks (List.replicate ((max aBack bBack).val / 64 + 1) 0) [] := by
        intro v hv
        rw [List.length_replicate] at hv
        exact ⟨0, List.getElem?_replicate_of_lt hv, by simp⟩
      obtain ⟨bitmap, hrun, hlength, hmarks⟩ := hempty.foldlM_setBit a fun v hv => by
        rw [List.length_replicate]
        exact word_of_mem ha hlast (le_max_left _ _) hv
      rw [hrun, ok_bind, hmarks.foldlM_getBit b 0 fun v hv => by
        rw [hlength, List.length_replicate]
        exact word_of_mem hb hlast' (le_max_right _ _) hv]
      rw [Nat.zero_add, List.append_nil, common_comm ha hb]
      congr 1
      exact common_congr fun v _ => List.mem_reverse

end Bitmap

section Dispatcher

variable {a b}

/-- The AVX2 loop counts the common elements. -/
theorem avx2IntersectionImpl_eq (ha : Ascending id a) (hb : Ascending id b) :
    avx2IntersectionImpl a b = common a b := by
  have hloop := blockLoop_eq 8 (fun va vb => avx2Matches_eq) ha hb 0 0 0
  rw [avx2IntersectionImpl, hloop, List.drop_zero, List.drop_zero, Nat.zero_add]

/-- The AVX-512 loop counts the common elements. -/
theorem avx512IntersectionImpl_eq (ha : Ascending id a) (hb : Ascending id b) :
    avx512IntersectionImpl a b = common a b := by
  have hloop := blockLoop_eq 16 (fun va vb => avx512Matches_eq) ha hb 0 0 0
  rw [avx512IntersectionImpl, hloop, List.drop_zero, List.drop_zero, Nat.zero_add]

/-- The NEON kernel counts the common elements, as does what stands in for it. -/
theorem neonIntersection_eq (ha : Ascending id a) (hb : Ascending id b) (build : BuildTarget) :
    neonIntersection build a b = common a b := by
  have hloop := blockLoop_eq 4 (fun va vb _ hvb => neonMatches_eq hvb va) ha hb 0 0 0
  unfold neonIntersection
  split
  · rw [hloop, List.drop_zero, List.drop_zero, Nat.zero_add]
  · exact scalarIntersection_eq ha hb

/-- The AVX2 kernel counts the common elements on every machine. -/
theorem avx2Intersection_eq (ha : Ascending id a) (hb : Ascending id b) (build : BuildTarget)
    (features : CpuFeatures) : avx2Intersection build features a b = common a b := by
  unfold avx2Intersection
  split
  · exact avx2IntersectionImpl_eq ha hb
  · exact scalarIntersection_eq ha hb

/-- The AVX-512 kernel counts the common elements on every machine. -/
theorem avx512Intersection_eq (ha : Ascending id a) (hb : Ascending id b) (build : BuildTarget)
    (features : CpuFeatures) : avx512Intersection build features a b = common a b := by
  unfold avx512Intersection
  split
  · exact avx512IntersectionImpl_eq ha hb
  · exact scalarIntersection_eq ha hb

/-- The dispatcher's choice does not change the count. -/
theorem adaptiveIntersection_eq (ha : Ascending id a) (hb : Ascending id b) (build : BuildTarget)
    (features : CpuFeatures) : adaptiveIntersection build features a b = .ok (common a b) := by
  unfold adaptiveIntersection
  cases selectIntersection features a b with
  | galloping =>
    dsimp only
    split
    · rw [gallopingIntersection_eq hb]
      rfl
    · rw [gallopingIntersection_eq ha, common_comm hb ha]
      rfl
  | bitmap => exact bitmapIntersection_eq ha hb
  | avx2 => exact congrArg Except.ok (avx2Intersection_eq ha hb build features)
  | avx512 => exact congrArg Except.ok (avx512Intersection_eq ha hb build features)
  | neon => exact congrArg Except.ok (neonIntersection_eq ha hb build)
  | scalarMerge => exact congrArg Except.ok (scalarIntersection_eq ha hb)

/-- Every kernel, and the dispatcher on every machine, returns the size of the intersection. -/
theorem intersections_agree (ha : Ascending id a) (hb : Ascending id b) :
    scalarIntersection a b = (a.toFinset ∩ b.toFinset).card ∧
      gallopingIntersection a b = (a.toFinset ∩ b.toFinset).card ∧
      bitmapIntersection a b = .ok (a.toFinset ∩ b.toFinset).card ∧
      avx2IntersectionImpl a b = (a.toFinset ∩ b.toFinset).card ∧
      avx512IntersectionImpl a b = (a.toFinset ∩ b.toFinset).card ∧
      blockLoop 4 neonMatches a b 0 0 0 = (a.toFinset ∩ b.toFinset).card ∧
      ∀ build features,
        avx2Intersection build features a b = (a.toFinset ∩ b.toFinset).card ∧
        avx512Intersection build features a b = (a.toFinset ∩ b.toFinset).card ∧
        neonIntersection build a b = (a.toFinset ∩ b.toFinset).card ∧
        adaptiveIntersection build features a b = .ok (a.toFinset ∩ b.toFinset).card ∧
        adaptiveIntersection build features a b = adaptiveIntersection build features b a := by
  rw [← common_eq_card ha b]
  refine ⟨scalarIntersection_eq ha hb, gallopingIntersection_eq hb a, bitmapIntersection_eq ha hb,
    avx2IntersectionImpl_eq ha hb, avx512IntersectionImpl_eq ha hb,
    neonIntersection_eq ha hb { armNeon := true }, fun build features => ?_⟩
  refine ⟨avx2Intersection_eq ha hb build features, avx512Intersection_eq ha hb build features,
    neonIntersection_eq ha hb build, adaptiveIntersection_eq ha hb build features, ?_⟩
  rw [adaptiveIntersection_eq ha hb, adaptiveIntersection_eq hb ha, common_comm ha hb]

/-- Two blocks that share two ids, and a tail that shares one more. -/
theorem intersections_agree_blocks :
    scalarIntersection [1, 3, 5, 7, 9] [0, 3, 4, 7, 9] = 3 ∧
      bitmapIntersection [1, 3, 5, 7, 9] [0, 3, 4, 7, 9] = .ok 3 ∧
      neonIntersection { armNeon := true } [1, 3, 5, 7, 9] [0, 3, 4, 7, 9] = 3 ∧
      ∀ build features,
        adaptiveIntersection build features [1, 3, 5, 7, 9] [0, 3, 4, 7, 9] = .ok 3 := by
  have hagree := intersections_agree (a := [1, 3, 5, 7, 9]) (b := [0, 3, 4, 7, 9])
    (by unfold Ascending; decide) (by unfold Ascending; decide)
  have hcard : (([1, 3, 5, 7, 9] : List VertexId).toFinset ∩ [0, 3, 4, 7, 9].toFinset).card = 3 := by
    decide
  rw [hcard] at hagree
  obtain ⟨hscalar, -, hbitmap, -, -, -, hall⟩ := hagree
  exact ⟨hscalar, hbitmap, (hall { armNeon := true } {}).2.2.1,
    fun build features => (hall build features).2.2.2.1⟩

end Dispatcher

end Kernels

end VeloGraphX
