import Mathlib

/-!
# Lines of text, and unsigned integers read from them

A text is a list of bytes. `lines` is what reading it line by line yields, and `InputText.read` is
the formatted extraction of a 64-bit unsigned integer: white space is skipped, then a sign may
follow and the longest run of decimal digits; a minus sign negates modulo `2 ^ 64`, a value of
`2 ^ 64` or more fails, and so does a missing digit. `Writes` says which byte strings stand for
which number, without saying how they are read.
-/

namespace TextStream

/-- White space: space, tab, line feed, vertical tab, form feed and carriage return. -/
def isSpace (b : UInt8) : Bool := b == 32 || (decide (9 ≤ b) && decide (b ≤ 13))

/-- The bytes `0` to `9`. -/
def isDigit (b : UInt8) : Bool := decide (48 ≤ b) && decide (b ≤ 57)

/-- The bytes `+` and `-`. -/
def isSign (b : UInt8) : Bool := b == 43 || b == 45

/-- The number that a string of digits stands for. -/
def decimal (digits : List UInt8) : ℕ := digits.foldl (fun n b => 10 * n + (b.toNat - 48)) 0

/-- The digits of a number. -/
def digitsOf (n : ℕ) : List UInt8 :=
  if n < 10 then [UInt8.ofNat (48 + n)] else digitsOf (n / 10) ++ [UInt8.ofNat (48 + n % 10)]
termination_by n
decreasing_by omega

/-- The lines of a text: what `getline` yields until it fails. A line feed ends a line, and what
follows the last one is a line when it is not empty. -/
def lines : List UInt8 → List (List UInt8)
  | [] => []
  | b :: rest =>
    if b == 10 then [] :: lines rest
    else
      match lines rest with
      | [] => [[b]]
      | line :: more => (b :: line) :: more

/-- A text that is read from: what is left of it, and the states `eofbit` and `failbit`. -/
structure InputText where
  rest : List UInt8
  eof : Bool := false
  fail : Bool := false
deriving DecidableEq, Repr

/-- The sign that a text begins with, and what follows. -/
def signOf : List UInt8 → Bool × List UInt8
  | [] => (false, [])
  | b :: rest => if b == 45 then (true, rest) else if b == 43 then (false, rest) else (false, b :: rest)

/-- The longest run of digits that a text begins with, as a number with the given sign. -/
def readDigits (negative : Bool) (text : List UInt8) : ℕ × InputText :=
  let digits := text.takeWhile isDigit
  let rest := text.dropWhile isDigit
  if digits = [] then (0, ⟨rest, rest.isEmpty, true⟩)
  else if 2 ^ 64 ≤ decimal digits then (2 ^ 64 - 1, ⟨rest, rest.isEmpty, true⟩)
  else
    (if negative then (2 ^ 64 - decimal digits) % 2 ^ 64 else decimal digits,
      ⟨rest, rest.isEmpty, false⟩)

/-- White space, a sign and digits. -/
def readNumber (text : List UInt8) : ℕ × InputText :=
  match text.dropWhile isSpace with
  | [] => (0, ⟨[], true, true⟩)
  | b :: text => readDigits (signOf (b :: text)).1 (signOf (b :: text)).2

/-- `>>` into a `std::uint64_t` that is zero. -/
def InputText.read (s : InputText) : ℕ × InputText :=
  if s.eof || s.fail then (0, { s with fail := true }) else readNumber s.rest

/-- `>> std::ws`. -/
def InputText.skipSpace (s : InputText) : InputText :=
  if s.eof || s.fail then { s with fail := true }
  else
    let rest := s.rest.dropWhile isSpace
    { s with rest := rest, eof := rest.isEmpty }

/-- All bytes are white space. -/
def Blank (text : List UInt8) : Prop := ∀ b ∈ text, isSpace b = true

/-- A non-empty string of digits. -/
def Digits (text : List UInt8) : Prop := text ≠ [] ∧ ∀ b ∈ text, isDigit b = true

/-- The byte strings that stand for a 64-bit number. -/
inductive Writes : List UInt8 → ℕ → Prop
  | plain {digits : List UInt8} (h : Digits digits) (hlt : decimal digits < 2 ^ 64) :
      Writes digits (decimal digits)
  | plus {digits : List UInt8} (h : Digits digits) (hlt : decimal digits < 2 ^ 64) :
      Writes (43 :: digits) (decimal digits)
  | minus {digits : List UInt8} (h : Digits digits) (hlt : decimal digits < 2 ^ 64) :
      Writes (45 :: digits) ((2 ^ 64 - decimal digits) % 2 ^ 64)

/-- A text does not begin with a digit. -/
def NoDigit (text : List UInt8) : Prop := ∀ b ∈ text.head?, isDigit b = false

/-- A text does not begin with white space. -/
def NoSpace (text : List UInt8) : Prop := ∀ b ∈ text.head?, isSpace b = false

/-- A text splits at the first byte that a test rejects. -/
theorem span_append {p : UInt8 → Bool} {first rest : List UInt8} (hfirst : ∀ b ∈ first, p b = true)
    (hrest : ∀ b ∈ rest.head?, p b = false) :
    (first ++ rest).takeWhile p = first ∧ (first ++ rest).dropWhile p = rest := by
  induction first with
  | nil =>
    cases rest with
    | nil => exact ⟨rfl, rfl⟩
    | cons b rest =>
      have hb : p b = false := hrest b rfl
      exact ⟨List.takeWhile_cons_of_neg (by simp [hb]), List.dropWhile_cons_of_neg (by simp [hb])⟩
  | cons b first ih =>
    have hb : p b = true := hfirst b List.mem_cons_self
    obtain ⟨htake, hdrop⟩ := ih fun c hc => hfirst c (List.mem_cons_of_mem _ hc)
    rw [List.cons_append, List.takeWhile_cons_of_pos hb, List.dropWhile_cons_of_pos hb, htake]
    exact ⟨rfl, hdrop⟩

/-- What is left after dropping does not begin with a byte that the test accepts. -/
theorem head?_dropWhile {p : UInt8 → Bool} (text : List UInt8) :
    ∀ b ∈ (text.dropWhile p).head?, p b = false := by
  intro b hb
  have hnot := List.head?_dropWhile_not p text
  rw [Option.mem_def.mp hb] at hnot
  simpa using hnot

/-- What was taken satisfies the test. -/
theorem of_mem_takeWhile {p : UInt8 → Bool} {text : List UInt8} :
    ∀ b ∈ text.takeWhile p, p b = true := fun _ => List.mem_takeWhile_imp

/-- White space before a text is dropped. -/
theorem dropWhile_blank {gap text : List UInt8} (hgap : Blank gap) (htext : NoSpace text) :
    (gap ++ text).dropWhile isSpace = text := (span_append hgap htext).2

/-- Text that is dropped to nothing was white space. -/
theorem blank_iff (text : List UInt8) : Blank text ↔ text.dropWhile isSpace = [] :=
  List.dropWhile_eq_nil_iff.symm

/-- A digit is neither white space nor a sign. -/
theorem digit_kind {b : UInt8} (h : isDigit b = true) :
    isSpace b = false ∧ (b == 45) = false ∧ (b == 43) = false := by
  simp only [isDigit, isSpace, Bool.and_eq_true, decide_eq_true_eq, Bool.or_eq_false_iff,
    beq_eq_false_iff_ne, Bool.and_eq_false_iff, decide_eq_false_iff_not, UInt8.le_iff_toNat_le,
    ne_eq, ← UInt8.toNat_inj, UInt8.reduceToNat] at h ⊢
  omega

/-- A written number begins with a sign or a digit. -/
theorem Writes.head {text : List UInt8} {n : ℕ} (h : Writes text n) :
    ∃ b rest, text = b :: rest ∧ (isDigit b = true ∨ isSign b = true) := by
  cases h with
  | plain h hlt =>
    obtain ⟨b, rest, rfl⟩ := List.exists_cons_of_ne_nil h.1
    exact ⟨b, rest, rfl, .inl (h.2 b List.mem_cons_self)⟩
  | plus h hlt => exact ⟨43, _, rfl, .inr rfl⟩
  | minus h hlt => exact ⟨45, _, rfl, .inr rfl⟩

/-- Reading digits that are followed by something else. -/
theorem readDigits_append {digits rest : List UInt8} (h : Digits digits)
    (hlt : decimal digits < 2 ^ 64) (hrest : NoDigit rest) (negative : Bool) :
    readDigits negative (digits ++ rest) =
      (if negative then (2 ^ 64 - decimal digits) % 2 ^ 64 else decimal digits,
        ⟨rest, rest.isEmpty, false⟩) := by
  obtain ⟨htake, hdrop⟩ := span_append h.2 hrest
  unfold readDigits
  rw [htake, hdrop]
  dsimp only
  rw [if_neg h.1, if_neg (not_le.mpr hlt)]

/-- A written number is read back, with the white space before it. -/
theorem readNumber_writes {gap text rest : List UInt8} {n : ℕ} (hgap : Blank gap)
    (htext : Writes text n) (hrest : NoDigit rest) :
    readNumber (gap ++ (text ++ rest)) = (n, ⟨rest, rest.isEmpty, false⟩) := by
  obtain ⟨b, more, rfl, hb⟩ := htext.head
  have hspace : isSpace b = false := by
    rcases hb with hdigit | hsign
    · exact (digit_kind hdigit).1
    · rcases Bool.or_eq_true_iff.mp hsign with h | h <;> rw [eq_of_beq h] <;> rfl
  have hdrop : (gap ++ (b :: more ++ rest)).dropWhile isSpace = b :: (more ++ rest) :=
    dropWhile_blank hgap fun c hc => (Option.mem_some_iff.mp hc) ▸ hspace
  have hread : readNumber (gap ++ (b :: more ++ rest)) =
      readDigits (signOf (b :: (more ++ rest))).1 (signOf (b :: (more ++ rest))).2 := by
    rw [readNumber, hdrop]
  rw [hread]
  generalize htext' : b :: more = text at htext
  cases htext with
  | plain h hlt =>
    obtain ⟨hminus, hplus⟩ := (digit_kind (h.2 b (htext' ▸ List.mem_cons_self))).2
    rw [signOf, if_neg (by rw [hminus]; exact Bool.false_ne_true),
      if_neg (by rw [hplus]; exact Bool.false_ne_true), ← List.cons_append, htext']
    exact readDigits_append h hlt hrest false
  | plus h hlt =>
    obtain ⟨rfl, rfl⟩ := List.cons.inj htext'
    exact readDigits_append h hlt hrest false
  | minus h hlt =>
    obtain ⟨rfl, rfl⟩ := List.cons.inj htext'
    exact readDigits_append h hlt hrest true

/-- Digits that were read without failing. -/
theorem digits_of_readDigits {negative : Bool} {text : List UInt8} {n : ℕ} {s : InputText}
    (h : readDigits negative text = (n, s)) (hfail : s.fail = false) :
    ∃ digits, text = digits ++ s.rest ∧ Digits digits ∧ decimal digits < 2 ^ 64 ∧
      n = (if negative then (2 ^ 64 - decimal digits) % 2 ^ 64 else decimal digits) ∧
      NoDigit s.rest ∧ s.eof = s.rest.isEmpty := by
  unfold readDigits at h
  dsimp only at h
  split at h
  · obtain ⟨-, rfl⟩ := Prod.mk.inj h
    exact absurd hfail nofun
  · rename_i hne
    split at h
    · obtain ⟨-, rfl⟩ := Prod.mk.inj h
      exact absurd hfail nofun
    · rename_i hlt
      obtain ⟨hn, rfl⟩ := Prod.mk.inj h
      exact ⟨text.takeWhile isDigit, List.takeWhile_append_dropWhile.symm,
        ⟨hne, of_mem_takeWhile⟩, not_le.mp hlt, hn.symm, head?_dropWhile text, rfl⟩

/-- What was read without failing was written, after white space, and as far as it goes. -/
theorem writes_of_readNumber {bytes : List UInt8} {n : ℕ} {s : InputText}
    (h : readNumber bytes = (n, s)) (hfail : s.fail = false) :
    ∃ gap text, bytes = gap ++ (text ++ s.rest) ∧ Blank gap ∧ Writes text n ∧ NoDigit s.rest ∧
      s.eof = s.rest.isEmpty := by
  unfold readNumber at h
  split at h
  · obtain ⟨-, rfl⟩ := Prod.mk.inj h
    exact absurd hfail nofun
  · rename_i b text hdrop
    have hbytes : bytes = bytes.takeWhile isSpace ++ (b :: text) := by
      rw [← hdrop, List.takeWhile_append_dropWhile]
    obtain ⟨digits, hsplit, hdigits, hlt, hn, hrest, heof⟩ := digits_of_readDigits h hfail
    have hwritten : ∃ written, b :: text = written ++ s.rest ∧ Writes written n := by
      rw [signOf] at hsplit hn
      split at hsplit
      · rename_i hminus
        rw [if_pos hminus] at hn
        refine ⟨45 :: digits, ?_, hn ▸ .minus hdigits hlt⟩
        rw [eq_of_beq hminus, List.cons_append, ← hsplit]
      · rename_i hminus
        rw [if_neg hminus] at hn
        split at hsplit
        · rename_i hplus
          rw [if_pos hplus] at hn
          refine ⟨43 :: digits, ?_, hn ▸ .plus hdigits hlt⟩
          rw [eq_of_beq hplus, List.cons_append, ← hsplit]
        · rename_i hplus
          rw [if_neg hplus] at hn
          exact ⟨digits, hsplit, hn ▸ .plain hdigits hlt⟩
    obtain ⟨written, hwritten, hwrites⟩ := hwritten
    exact ⟨_, written, hwritten ▸ hbytes, of_mem_takeWhile, hwrites, hrest, heof⟩

/-- A line feed ends a line. -/
theorem lines_append {line : List UInt8} (h : 10 ∉ line) (rest : List UInt8) :
    lines (line ++ 10 :: rest) = line :: lines rest := by
  induction line with
  | nil => rfl
  | cons b line ih =>
    rw [List.mem_cons, not_or] at h
    have hb : ¬ (b == 10) = true := fun heq => h.1 (eq_of_beq heq).symm
    rw [List.cons_append, lines, if_neg hb, ih h.2]

/-- A text that was written line by line is read line by line. -/
theorem lines_flatMap {written : List (List UInt8)} (h : ∀ line ∈ written, 10 ∉ line) :
    lines (written.flatMap fun line => line ++ [10]) = written := by
  induction written with
  | nil => rfl
  | cons line rest ih =>
    rw [List.flatMap_cons, List.append_assoc, List.singleton_append,
      lines_append (h line List.mem_cons_self), ih fun l hl => h l (List.mem_cons_of_mem _ hl)]

/-- One more digit. -/
theorem decimal_concat (digits : List UInt8) (b : UInt8) :
    decimal (digits ++ [b]) = 10 * decimal digits + (b.toNat - 48) := by
  rw [decimal, List.foldl_append]
  rfl

/-- A digit as a byte. -/
theorem digit_byte {d : ℕ} (h : d < 10) :
    isDigit (UInt8.ofNat (48 + d)) = true ∧ (UInt8.ofNat (48 + d)).toNat - 48 = d := by
  have hval : (UInt8.ofNat (48 + d)).toNat = 48 + d := by
    rw [UInt8.toNat_ofNat']
    omega
  simp only [isDigit, Bool.and_eq_true, decide_eq_true_eq, UInt8.le_iff_toNat_le, hval,
    UInt8.reduceToNat]
  omega

/-- The digits of a number are digits, and stand for it. -/
theorem digitsOf_spec (n : ℕ) : Digits (digitsOf n) ∧ decimal (digitsOf n) = n := by
  induction n using Nat.strong_induction_on with
  | h n ih =>
    rw [digitsOf]
    split
    · rename_i hlt
      obtain ⟨hdigit, hval⟩ := digit_byte hlt
      refine ⟨⟨List.cons_ne_nil _ _, fun b hb => ?_⟩, ?_⟩
      · rw [List.mem_singleton.mp hb]
        exact hdigit
      · rw [← List.nil_append [_], decimal_concat, hval]
        exact Nat.zero_add n
    · obtain ⟨hdigits, hdecimal⟩ := ih (n / 10) (by omega)
      obtain ⟨hdigit, hval⟩ := digit_byte (Nat.mod_lt n (by decide : 10 > 0))
      refine ⟨⟨List.append_ne_nil_of_left_ne_nil hdigits.1 _, fun b hb => ?_⟩, ?_⟩
      · rcases List.mem_append.mp hb with hold | hnew
        · exact hdigits.2 b hold
        · rw [List.mem_singleton.mp hnew]
          exact hdigit
      · rw [decimal_concat, hdecimal, hval]
        omega

/-- The digits of a number write it. -/
theorem writes_digitsOf {n : ℕ} (h : n < 2 ^ 64) : Writes (digitsOf n) n := by
  obtain ⟨hdigits, hdecimal⟩ := digitsOf_spec n
  have hwrites := Writes.plain hdigits (by rwa [hdecimal])
  rwa [hdecimal] at hwrites

end TextStream
