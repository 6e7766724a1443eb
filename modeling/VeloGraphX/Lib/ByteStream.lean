import Mathlib

/-!
# Unsigned integers as bytes, and reading them from a stream

A host stores an unsigned integer of a fixed width in its own byte order. A stream of bytes hands
out fields of given widths; a field that is not all there takes the bytes that are left, leaves
the rest of the zero-initialised variable alone and fails the stream, which then reads no more.
-/

namespace ByteStream

/-- The order in which a host stores the bytes of an integer. -/
inductive ByteOrder
  | little
  | big
deriving DecidableEq, Repr

/-- The low bytes of a number, the least significant first. -/
def lowBytes (w x : ℕ) : List UInt8 := (List.range w).map fun i => UInt8.ofNat (x / 256 ^ i)

/-- The number whose low bytes are given, the least significant first. -/
def ofLowBytes (bytes : List UInt8) : ℕ := bytes.foldr (fun b x => b.toNat + 256 * x) 0

/-- The bytes of an unsigned integer of a width, as they lie in memory. -/
def stored : ByteOrder → ℕ → ℕ → List UInt8
  | .little, w, x => lowBytes w x
  | .big, w, x => (lowBytes w x).reverse

/-- The unsigned integer that lies in memory. -/
def loaded : ByteOrder → List UInt8 → ℕ
  | .little, bytes => ofLowBytes bytes
  | .big, bytes => ofLowBytes bytes.reverse

/-- What a zero-initialised variable holds after the first bytes of an integer have arrived. -/
def arrived : ByteOrder → ℕ → ℕ → ℕ → ℕ
  | .little, _, count, x => x % 256 ^ count
  | .big, w, count, x => x / 256 ^ (w - count) * 256 ^ (w - count)

/-- All bytes of an integer that fits its width are the integer. -/
theorem arrived_all (order : ByteOrder) {w x : ℕ} (hx : x < 256 ^ w) : arrived order w w x = x := by
  cases order with
  | little => exact Nat.mod_eq_of_lt hx
  | big => rw [arrived, Nat.sub_self, pow_zero, Nat.div_one, Nat.mul_one]

/-- Before the first byte nothing has arrived. -/
theorem arrived_zero (order : ByteOrder) {w x : ℕ} (hx : x < 256 ^ w) : arrived order w 0 x = 0 := by
  cases order with
  | little => exact Nat.mod_one x
  | big => rw [arrived, Nat.sub_zero, Nat.div_eq_of_lt hx, Nat.zero_mul]

/-- An input stream: the bytes that are left, and whether a read failed. -/
structure InputStream where
  bytes : List UInt8
  failed : Bool := false
deriving DecidableEq, Repr

/-- Read into a zero-initialised variable of a width. -/
def InputStream.read (order : ByteOrder) (w : ℕ) (s : InputStream) : ℕ × InputStream :=
  if s.failed then (0, s)
  else if w ≤ s.bytes.length then (loaded order (s.bytes.take w), { s with bytes := s.bytes.drop w })
  else (loaded order (s.bytes ++ List.replicate (w - s.bytes.length) 0), ⟨[], true⟩)

/-- A number has as many low bytes as asked for. -/
@[simp] theorem length_lowBytes (w x : ℕ) : (lowBytes w x).length = w := by
  rw [lowBytes, List.length_map, List.length_range]

/-- A stored integer takes its width. -/
@[simp] theorem length_stored (order : ByteOrder) (w x : ℕ) : (stored order w x).length = w := by
  cases order with
  | little => exact length_lowBytes w x
  | big => exact (List.length_reverse).trans (length_lowBytes w x)

/-- The lowest byte and the bytes of the rest. -/
theorem lowBytes_succ (w x : ℕ) : lowBytes (w + 1) x = UInt8.ofNat x :: lowBytes w (x / 256) := by
  rw [lowBytes, List.range_succ_eq_map, List.map_cons, List.map_map, pow_zero, Nat.div_one, lowBytes]
  refine congrArg _ (List.map_congr_left fun i _ => ?_)
  rw [Function.comp_apply, Nat.succ_eq_add_one, pow_succ', Nat.div_div_eq_div_mul]

/-- The low bytes keep a number modulo their range. -/
theorem ofLowBytes_lowBytes (w x : ℕ) : ofLowBytes (lowBytes w x) = x % 256 ^ w := by
  induction w generalizing x with
  | zero => rw [pow_zero, Nat.mod_one]; rfl
  | succ w ih =>
    rw [lowBytes_succ, ofLowBytes, List.foldr_cons]
    change (UInt8.ofNat x).toNat + 256 * ofLowBytes (lowBytes w (x / 256)) = _
    have hbyte : 2 ^ 8 = 256 := rfl
    rw [ih, UInt8.toNat_ofNat', hbyte, pow_succ' 256 w, Nat.mod_mul]

/-- Low bytes and the bytes above them. -/
theorem ofLowBytes_append (low high : List UInt8) :
    ofLowBytes (low ++ high) = ofLowBytes low + 256 ^ low.length * ofLowBytes high := by
  induction low with
  | nil => simp [ofLowBytes]
  | cons byte rest ih =>
    simp only [ofLowBytes, List.cons_append, List.foldr_cons, List.length_cons] at ih ⊢
    rw [ih, pow_succ]
    ring

/-- A number of so many bytes is below the power of the base. -/
theorem ofLowBytes_lt (bytes : List UInt8) : ofLowBytes bytes < 256 ^ bytes.length := by
  induction bytes with
  | nil => simp [ofLowBytes]
  | cons byte rest ih =>
    have hbyte := byte.toNat_lt
    simp only [ofLowBytes, List.foldr_cons, List.length_cons, pow_succ] at ih ⊢
    omega

/-- Zeros make zero. -/
theorem ofLowBytes_zeros (k : ℕ) : ofLowBytes (List.replicate k 0) = 0 := by
  induction k with
  | zero => rfl
  | succ k ih =>
    simp only [ofLowBytes, List.replicate_succ, List.foldr_cons] at ih ⊢
    rw [ih]
    rfl

/-- Zeros at the top change nothing. -/
theorem ofLowBytes_append_zeros (bytes : List UInt8) (k : ℕ) :
    ofLowBytes (bytes ++ List.replicate k 0) = ofLowBytes bytes := by
  rw [ofLowBytes_append, ofLowBytes_zeros, Nat.mul_zero, Nat.add_zero]

/-- Zeros at the bottom shift the number. -/
theorem ofLowBytes_zeros_append (bytes : List UInt8) (k : ℕ) :
    ofLowBytes (List.replicate k 0 ++ bytes) = ofLowBytes bytes * 256 ^ k := by
  rw [ofLowBytes_append, ofLowBytes_zeros, List.length_replicate, Nat.zero_add, Nat.mul_comm]

/-- The first low bytes are low bytes. -/
theorem take_lowBytes (w x k : ℕ) : (lowBytes w x).take k = lowBytes (min k w) x := by
  rw [lowBytes, ← List.map_take, List.take_range, lowBytes]

/-- The other low bytes are those of a shifted number. -/
theorem drop_lowBytes (w x k : ℕ) : (lowBytes w x).drop k = lowBytes (w - k) (x / 256 ^ k) := by
  induction k generalizing w x with
  | zero => rw [List.drop_zero, Nat.sub_zero, pow_zero, Nat.div_one]
  | succ k ih =>
    cases w with
    | zero => rw [Nat.zero_sub]; exact List.drop_nil
    | succ w =>
      rw [lowBytes_succ, List.drop_succ_cons, ih, Nat.add_sub_add_right, Nat.div_div_eq_div_mul,
        pow_succ']

/-- An integer in memory is less than its width allows. -/
theorem loaded_lt (order : ByteOrder) (bytes : List UInt8) :
    loaded order bytes < 256 ^ bytes.length := by
  cases order with
  | little => exact ofLowBytes_lt bytes
  | big =>
    rw [← List.length_reverse]
    exact ofLowBytes_lt bytes.reverse

/-- Storing and loading gives an integer back that fits its width. -/
theorem loaded_stored (order : ByteOrder) {w x : ℕ} (hx : x < 256 ^ w) :
    loaded order (stored order w x) = x := by
  have hlow := (ofLowBytes_lowBytes w x).trans (Nat.mod_eq_of_lt hx)
  cases order with
  | little => exact hlow
  | big =>
    rw [loaded, stored, List.reverse_reverse]
    exact hlow

/-- Loading the first bytes of an integer gives the part of it that has arrived. -/
theorem loaded_take_stored (order : ByteOrder) {w x k : ℕ} (hx : x < 256 ^ w) (hk : k ≤ w) :
    loaded order ((stored order w x).take k ++ List.replicate (w - k) 0) = arrived order w k x := by
  cases order with
  | little =>
    rw [loaded, stored, ofLowBytes_append_zeros, take_lowBytes, ofLowBytes_lowBytes,
      Nat.min_eq_left hk]
    rfl
  | big =>
    have hsplit : 256 ^ w = 256 ^ (w - k) * 256 ^ k := by rw [← pow_add, Nat.sub_add_cancel hk]
    have hshift : x / 256 ^ (w - k) < 256 ^ k := Nat.div_lt_of_lt_mul (hsplit ▸ hx)
    rw [loaded, stored, List.reverse_append, List.reverse_replicate, List.take_reverse,
      List.reverse_reverse, length_lowBytes, ofLowBytes_zeros_append, drop_lowBytes,
      ofLowBytes_lowBytes, Nat.sub_sub_self hk, Nat.mod_eq_of_lt hshift]
    rfl

namespace InputStream

variable {order : ByteOrder}

/-- A field that is there is read whole. -/
theorem read_stored {w x : ℕ} (hx : x < 256 ^ w) (rest : List UInt8) :
    read order w ⟨stored order w x ++ rest, false⟩ = (x, ⟨rest, false⟩) := by
  unfold read
  have hle : w ≤ (stored order w x ++ rest).length := by
    rw [List.length_append, length_stored]
    exact Nat.le_add_right _ _
  have htake : (stored order w x ++ rest).take w = stored order w x := by
    rw [List.take_left' (length_stored order w x)]
  have hdrop : (stored order w x ++ rest).drop w = rest :=
    List.drop_left' (length_stored order w x)
  rw [if_neg Bool.false_ne_true, if_pos hle, htake, hdrop, loaded_stored order hx]

/-- A field that is cut off is read as far as it goes, and nothing is read after it. -/
theorem read_take_stored {w x k : ℕ} (hx : x < 256 ^ w) (hk : k < w) :
    read order w ⟨(stored order w x).take k, false⟩ = (arrived order w k x, ⟨[], true⟩) := by
  have hlength : ((stored order w x).take k).length = k := by
    rw [List.length_take, length_stored, Nat.min_eq_left hk.le]
  unfold read
  rw [if_neg Bool.false_ne_true, if_neg (by rw [hlength]; exact not_le.mpr hk)]
  dsimp only
  rw [hlength, loaded_take_stored order hx hk.le]

/-- Reading a field from a stream that was cut off somewhere. -/
theorem read_take {w x : ℕ} (hx : x < 256 ^ w) (rest : List UInt8) (k : ℕ) :
    read order w ⟨(stored order w x ++ rest).take k, false⟩ =
      if w ≤ k then (x, ⟨rest.take (k - w), false⟩) else (arrived order w k x, ⟨[], true⟩) := by
  rw [List.take_append, length_stored]
  split
  · rename_i hle
    rw [List.take_of_length_le ((length_stored order w x).le.trans hle)]
    exact read_stored hx _
  · rename_i hlt
    rw [Nat.sub_eq_zero_of_le (not_le.mp hlt).le, List.take_zero, List.append_nil]
    exact read_take_stored hx (not_le.mp hlt)

/-- A failed stream reads nothing. -/
theorem read_failed (w : ℕ) (bytes : List UInt8) :
    read order w ⟨bytes, true⟩ = (0, ⟨bytes, true⟩) := if_pos rfl

/-- Reading fails exactly when it failed before or the field is not all there. -/
theorem failed_read (w : ℕ) (s : InputStream) :
    (s.read order w).2.failed = (s.failed || decide (s.bytes.length < w)) := by
  unfold read
  cases hfailed : s.failed with
  | true => rw [if_pos rfl, hfailed]; rfl
  | false =>
    rw [if_neg Bool.false_ne_true, Bool.false_or]
    split
    · rename_i hle
      rw [decide_eq_false (not_lt.mpr hle)]
    · rename_i hlt
      rw [decide_eq_true (not_le.mp hlt)]

/-- Reading takes the width from what is left. -/
theorem length_read (w : ℕ) {s : InputStream} (hfailed : s.failed = false) :
    (s.read order w).2.bytes.length = s.bytes.length - w := by
  unfold read
  rw [hfailed, if_neg Bool.false_ne_true]
  split
  · exact List.length_drop
  · rename_i hlt
    exact (Nat.sub_eq_zero_of_le (not_le.mp hlt).le).symm

end InputStream

end ByteStream
