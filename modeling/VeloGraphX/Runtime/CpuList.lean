import Mathlib
import VeloGraphX.Lib.TextStream

/-!
# Lists of CPU ids

The kernel describes the CPUs of a node by ids and ranges of ids between commas. What cannot be read
is skipped, and so is a range that ends before it begins; everything else is collected in order, as long
as there is room. The loop over a range counts in 64 bits, so a range up to the last number goes on
until `push_back` throws; what it throws is caught, and what was collected stays.
-/

namespace VeloGraphX

open TextStream

namespace CpuList

/-- `std::stoull`, which throws where nothing can be read: white space, a sign and digits count, what
follows them does not. -/
def stoull (text : List UInt8) : Option ℕ :=
  if (readNumber text).2.fail then none else some (readNumber text).1

/-- What `for (cpu = first; cpu <= last; ++cpu) cpus.push_back(cpu)` appends when there is room for
`left` more ids: every turn appends one or ends the loop, without room by throwing. -/
def pushRange (last : ℕ) : ℕ → ℕ → List ℕ
  | 0, _ => []
  | left + 1, cpu => if cpu ≤ last then cpu :: pushRange last left ((cpu + 1) % 2 ^ 64) else []

/-- One token; what throws in it is caught. `push_back` throws at `room` ids, for want of memory or at
`max_size()`. -/
def parseToken (room : ℕ) (cpus : List ℕ) (token : List UInt8) : List ℕ :=
  if token = [] then cpus
  else if 45 ∉ token then
    match stoull token with
    | some cpu => if cpus.length < room then cpus ++ [cpu] else cpus
    | none => cpus
  else
    match stoull (token.takeWhile (· ≠ 45)), stoull (token.dropWhile (· ≠ 45)).tail with
    | some first, some last =>
      if first ≤ last then cpus ++ pushRange last (room - cpus.length) first else cpus
    | _, _ => cpus

/-- `parse_cpu_list`: the tokens are what stands between commas, and an empty one is skipped, so
that it makes no difference whether one is left behind the last comma. -/
def parseCpuList (room : ℕ) (text : List UInt8) : List ℕ :=
  (text.splitOn 44).foldl (parseToken room) []

/-- A number can be read from a text. -/
def Reads (text : List UInt8) (n : ℕ) : Prop :=
  ∃ gap written rest, text = gap ++ (written ++ rest) ∧ Blank gap ∧ Writes written n ∧ NoDigit rest

/-- The ids from the first to the last. -/
def idsBetween (first last : ℕ) : List ℕ := List.range' first (last + 1 - first)

/-- What a token stands for where there is room for some number of ids: one id, a range of ids, a range
up to the last 64-bit number, which begins again behind it and fills the room, or nothing. -/
inductive TokenMeans (room : ℕ) : List UInt8 → List ℕ → Prop
  | single {token : List UInt8} {cpu : ℕ} (h : 45 ∉ token) (hcpu : Reads token cpu) :
      TokenMeans room token [cpu]
  | range {before after : List UInt8} {first last : ℕ} (h : 45 ∉ before) (hfirst : Reads before first)
      (hlast : Reads after last) (hlt : last < 2 ^ 64 - 1) :
      TokenMeans room (before ++ 45 :: after) (idsBetween first last)
  | endless {before after : List UInt8} {first : ℕ} (h : 45 ∉ before) (hfirst : Reads before first)
      (hlast : Reads after (2 ^ 64 - 1)) :
      TokenMeans room (before ++ 45 :: after)
        ((List.range room).map fun i => (first + i) % 2 ^ 64)
  | noNumber {token : List UInt8} (h : 45 ∉ token) (hnone : ∀ cpu, ¬ Reads token cpu) :
      TokenMeans room token []
  | noRange {before after : List UInt8} (h : 45 ∉ before)
      (hnone : (∀ first, ¬ Reads before first) ∨ ∀ last, ¬ Reads after last) :
      TokenMeans room (before ++ 45 :: after) []

/-- `std::stoull` reads what can be read. -/
theorem stoull_eq_some_iff (text : List UInt8) (n : ℕ) : stoull text = some n ↔ Reads text n := by
  unfold stoull
  constructor
  · intro h
    split at h
    · exact absurd h.symm (Option.some_ne_none n)
    · rename_i hfail
      have hfail' : (readNumber text).2.fail = false := by simpa using hfail
      obtain ⟨gap, written, htext, hgap, hwritten, hrest, -⟩ :=
        writes_of_readNumber (s := (readNumber text).2) rfl hfail'
      exact ⟨gap, written, _, htext, hgap, Option.some.inj h ▸ hwritten, hrest⟩
  · rintro ⟨gap, written, rest, rfl, hgap, hwritten, hrest⟩
    rw [readNumber_writes hgap hwritten hrest]
    rfl

/-- It throws where nothing can be read. -/
theorem stoull_eq_none_iff (text : List UInt8) : stoull text = none ↔ ∀ n, ¬ Reads text n := by
  rw [Option.eq_none_iff_forall_ne_some]
  exact forall_congr' fun n => not_congr (stoull_eq_some_iff text n)

/-- A number that is read fits into 64 bits. -/
theorem Reads.lt {text : List UInt8} {n : ℕ} (h : Reads text n) : n < 2 ^ 64 := by
  obtain ⟨gap, written, rest, -, -, hwritten, -⟩ := h
  cases hwritten with
  | plain h hlt | plus h hlt => exact hlt
  | minus h hlt => exact Nat.mod_lt _ (by norm_num)

/-- A range that 64 bits can count is collected as far as there is room. -/
theorem pushRange_eq {last : ℕ} (hlt : last < 2 ^ 64 - 1) (left : ℕ) {cpu : ℕ} (hcpu : cpu < 2 ^ 64) :
    pushRange last left cpu = (idsBetween cpu last).take left := by
  induction left generalizing cpu with
  | zero => rfl
  | succ left ih =>
    rw [pushRange, idsBetween]
    split
    · rename_i hle
      have hnext : (cpu + 1) % 2 ^ 64 = cpu + 1 := Nat.mod_eq_of_lt (by omega)
      rw [ih (Nat.mod_lt _ (by norm_num)), hnext, Nat.sub_add_comm hle, List.range'_succ,
        List.take_succ_cons, idsBetween, Nat.add_sub_add_right]
    · rename_i hgt
      rw [Nat.sub_eq_zero_of_le (not_le.mp hgt), List.range'_zero, List.take_nil]

/-- A range up to the last number fills the room. -/
theorem pushRange_endless (left : ℕ) {cpu : ℕ} (hcpu : cpu < 2 ^ 64) :
    pushRange (2 ^ 64 - 1) left cpu = (List.range left).map fun i => (cpu + i) % 2 ^ 64 := by
  induction left generalizing cpu with
  | zero => rfl
  | succ left ih =>
    rw [pushRange, if_pos (by omega), ih (Nat.mod_lt _ (by norm_num)), List.range_succ_eq_map,
      List.map_cons, List.map_map]
    refine congrArg₂ _ (Nat.mod_eq_of_lt hcpu).symm (List.map_congr_left fun i _ => ?_)
    rw [Function.comp_apply, Nat.mod_add_mod, Nat.succ_eq_add_one, Nat.add_assoc, Nat.add_comm 1 i]

/-- What stands before and behind the first dash. -/
theorem split_dash {before : List UInt8} (h : 45 ∉ before) (after : List UInt8) :
    (before ++ 45 :: after).takeWhile (fun b => decide (b ≠ 45)) = before ∧
      ((before ++ 45 :: after).dropWhile (fun b => decide (b ≠ 45))).tail = after := by
  have hbefore : ∀ b ∈ before, decide (b ≠ 45) = true :=
    fun b hb => decide_eq_true fun heq => h (heq ▸ hb)
  have hafter : ∀ b ∈ (45 :: after : List UInt8).head?, decide (b ≠ 45) = false := by
    intro b hb
    rw [List.head?_cons, Option.mem_some_iff] at hb
    simp [← hb]
  obtain ⟨htake, hdrop⟩ := span_append hbefore hafter
  exact ⟨htake, by rw [hdrop]; rfl⟩

/-- A token with a dash. -/
theorem exists_dash {token : List UInt8} (h : 45 ∈ token) :
    ∃ before after, token = before ++ 45 :: after ∧ 45 ∉ before := by
  obtain ⟨before, after, rfl, hbefore⟩ := List.eq_append_cons_of_mem h
  exact ⟨before, after, rfl, hbefore⟩

/-- The reading of a token with a dash. -/
theorem parseToken_dash (room : ℕ) (cpus : List ℕ) {before : List UInt8} (h : 45 ∉ before)
    (after : List UInt8) : parseToken room cpus (before ++ 45 :: after) =
      match stoull before, stoull after with
      | some first, some last =>
        if first ≤ last then cpus ++ pushRange last (room - cpus.length) first else cpus
      | _, _ => cpus := by
  obtain ⟨htake, hdrop⟩ := split_dash h after
  unfold parseToken
  rw [if_neg (by simp), if_neg (by simp), htake, hdrop]

/-- The reading of a token without a dash. -/
theorem parseToken_plain (room : ℕ) (cpus : List ℕ) {token : List UInt8} (h : 45 ∉ token) :
    parseToken room cpus token =
      match stoull token with
      | some cpu => if cpus.length < room then cpus ++ [cpu] else cpus
      | none => cpus := by
  unfold parseToken
  by_cases hempty : token = []
  · subst hempty
    rfl
  · rw [if_neg hempty, if_pos h]

/-- Every token is read as what it stands for, as far as there is room. -/
theorem TokenMeans.parseToken {room : ℕ} {token : List UInt8} {part : List ℕ}
    (h : TokenMeans room token part) {cpus : List ℕ} (hroom : cpus.length ≤ room) :
    parseToken room cpus token = (cpus ++ part).take room := by
  rw [List.take_append, List.take_of_length_le hroom]
  cases h with
  | single h hcpu =>
    simp only [parseToken_plain _ _ h, (stoull_eq_some_iff _ _).mpr hcpu]
    split
    · rename_i hlt
      rw [List.take_of_length_le (by rw [List.length_singleton]; omega)]
    · rename_i hfull
      rw [Nat.sub_eq_zero_of_le (not_lt.mp hfull), List.take_zero, List.append_nil]
  | range h hfirst hlast hlt =>
    simp only [parseToken_dash _ _ h, (stoull_eq_some_iff _ _).mpr hfirst,
      (stoull_eq_some_iff _ _).mpr hlast]
    split
    · rw [pushRange_eq hlt _ hfirst.lt]
    · rename_i hgt
      rw [idsBetween, Nat.sub_eq_zero_of_le (not_le.mp hgt), List.range'_zero, List.take_nil,
        List.append_nil]
  | endless h hfirst hlast =>
    simp only [parseToken_dash _ _ h, (stoull_eq_some_iff _ _).mpr hfirst,
      (stoull_eq_some_iff _ _).mpr hlast]
    have hlt := hfirst.lt
    rw [if_pos (by omega), pushRange_endless _ hlt, ← List.map_take, List.take_range,
      Nat.min_eq_left (Nat.sub_le _ _)]
  | noNumber h hnone =>
    simp only [parseToken_plain _ _ h, (stoull_eq_none_iff _).mpr hnone, List.take_nil,
      List.append_nil]
  | noRange h hnone =>
    simp only [parseToken_dash _ _ h, List.take_nil, List.append_nil]
    rcases hnone with hnone | hnone
    · rw [(stoull_eq_none_iff _).mpr hnone]
    · rw [(stoull_eq_none_iff _).mpr hnone]
      cases stoull _ <;> rfl

/-- Every token stands for some ids. -/
theorem exists_means (room : ℕ) (token : List UInt8) : ∃ part, TokenMeans room token part := by
  by_cases hdash : 45 ∈ token
  · obtain ⟨before, after, rfl, hbefore⟩ := exists_dash hdash
    by_cases hfirst : ∃ first, Reads before first
    · obtain ⟨first, hfirst⟩ := hfirst
      by_cases hlast : ∃ last, Reads after last
      · obtain ⟨last, hlast⟩ := hlast
        by_cases hlt : last < 2 ^ 64 - 1
        · exact ⟨_, .range hbefore hfirst hlast hlt⟩
        · have hend : last = 2 ^ 64 - 1 := by
            have := hlast.lt
            omega
          exact ⟨_, .endless hbefore hfirst (hend ▸ hlast)⟩
      · exact ⟨_, .noRange hbefore (Or.inr (not_exists.mp hlast))⟩
    · exact ⟨_, .noRange hbefore (Or.inl (not_exists.mp hfirst))⟩
  · by_cases hcpu : ∃ cpu, Reads token cpu
    · obtain ⟨cpu, hcpu⟩ := hcpu
      exact ⟨_, .single hdash hcpu⟩
    · exact ⟨_, .noNumber hdash (not_exists.mp hcpu)⟩

/-- Cutting off early what does not fit makes no difference to what fits. -/
theorem take_take_append {α : Type*} (n : ℕ) (l r : List α) :
    (l.take n ++ r).take n = (l ++ r).take n := by
  rcases le_total l.length n with hfits | hfull
  · rw [List.take_of_length_le hfits]
  · rw [List.take_append_of_le_length (by rw [List.length_take, Nat.min_eq_left hfull]),
      List.take_append_of_le_length hfull, List.take_take, Nat.min_self]

/-- Tokens are read one after the other, as far as there is room for all of them together. -/
theorem foldl_parseToken {room : ℕ} {tokens : List (List UInt8)} {parts : List (List ℕ)}
    (h : List.Forall₂ (TokenMeans room) tokens parts) {cpus : List ℕ} (hroom : cpus.length ≤ room) :
    tokens.foldl (parseToken room) cpus = (cpus ++ parts.flatten).take room := by
  induction h generalizing cpus with
  | nil => rw [List.foldl_nil, List.flatten_nil, List.append_nil, List.take_of_length_le hroom]
  | cons hmeans _ ih =>
    rw [List.foldl_cons, hmeans.parseToken hroom, ih (List.length_take_le _ _), List.flatten_cons,
      take_take_append, List.append_assoc]

/-- Of every text, the ids of its tokens are collected in order, whatever cannot be read between them,
until there is no more room. -/
theorem parse_cpu_list_means (room : ℕ) (text : List UInt8) :
    ∃ parts, List.Forall₂ (TokenMeans room) (text.splitOn 44) parts ∧
      parseCpuList room text = parts.flatten.take room := by
  obtain ⟨parts, hparts⟩ : ∃ parts, List.Forall₂ (TokenMeans room) (text.splitOn 44) parts := by
    induction text.splitOn 44 with
    | nil => exact ⟨[], .nil⟩
    | cons token rest ih =>
      obtain ⟨part, hpart⟩ := exists_means room token
      obtain ⟨parts, hparts⟩ := ih
      exact ⟨part :: parts, .cons hpart hparts⟩
  exact ⟨parts, hparts, @foldl_parseToken room _ _ hparts [] (Nat.zero_le room)⟩

/-- A range as the kernel writes it. -/
def rangeText (range : ℕ × ℕ) : List UInt8 :=
  if range.1 = range.2 then digitsOf range.1 else digitsOf range.1 ++ 45 :: digitsOf range.2

/-- Ranges as the kernel writes them. -/
def cpuListText (ranges : List (ℕ × ℕ)) : List UInt8 := [44].intercalate (ranges.map rangeText)

/-- No digit is a dash or a comma. -/
theorem not_mem_digitsOf (n : ℕ) : 45 ∉ digitsOf n ∧ 44 ∉ digitsOf n := by
  have hdigits := (digitsOf_spec n).1.2
  exact ⟨fun h => absurd (hdigits 45 h) (by decide), fun h => absurd (hdigits 44 h) (by decide)⟩

/-- Digits are read as their number. -/
theorem reads_digitsOf {n : ℕ} (h : n < 2 ^ 64) : Reads (digitsOf n) n :=
  ⟨[], digitsOf n, [], by simp, fun b hb => absurd hb List.not_mem_nil, writes_digitsOf h,
    fun b hb => absurd hb (by simp)⟩

/-- A written range stands for its ids. -/
theorem rangeText_means {range : ℕ × ℕ} (hle : range.1 ≤ range.2) (hlt : range.2 < 2 ^ 64 - 1) :
    (∀ room, TokenMeans room (rangeText range) (idsBetween range.1 range.2)) ∧
      44 ∉ rangeText range := by
  obtain ⟨hdash, hcomma⟩ := not_mem_digitsOf range.1
  obtain ⟨-, hcomma'⟩ := not_mem_digitsOf range.2
  unfold rangeText
  split
  · rename_i heq
    have hone : idsBetween range.1 range.2 = [range.1] := by
      rw [idsBetween, ← heq, Nat.add_sub_cancel_left, List.range'_one]
    exact ⟨fun room => hone ▸ .single hdash (reads_digitsOf (by omega)), hcomma⟩
  · refine ⟨fun room => .range hdash (reads_digitsOf (by omega)) (reads_digitsOf (by omega)) hlt, ?_⟩
    simp [hcomma, hcomma']

/-- What the kernel writes for any ranges of ids is parsed as these ids if there is room for them. -/
theorem cpuListText_parses (ranges : List (ℕ × ℕ))
    (hle : ∀ range ∈ ranges, range.1 ≤ range.2) (hlt : ∀ range ∈ ranges, range.2 < 2 ^ 64 - 1)
    (room : ℕ) (hroom : (ranges.flatMap fun range => idsBetween range.1 range.2).length ≤ room) :
    parseCpuList room (cpuListText ranges) =
      ranges.flatMap fun range => idsBetween range.1 range.2 := by
  have hmeans : List.Forall₂ (TokenMeans room) (ranges.map rangeText)
      (ranges.map fun range => idsBetween range.1 range.2) := by
    rw [List.forall₂_map_left_iff, List.forall₂_map_right_iff, List.forall₂_same]
    exact fun range hrange => (rangeText_means (hle range hrange) (hlt range hrange)).1 room
  unfold parseCpuList cpuListText
  by_cases hempty : ranges = []
  · subst hempty
    rfl
  · rw [List.splitOn_intercalate 44 (fun token htoken => ?_) (by simpa using hempty)]
    · rw [@foldl_parseToken room _ _ hmeans [] (Nat.zero_le room)]
      exact List.take_of_length_le hroom
    · obtain ⟨range, hrange, rfl⟩ := List.mem_map.mp htoken
      exact (rangeText_means (hle range hrange) (hlt range hrange)).2

/-- The case of `0-3,8`. -/
theorem cpuListText_parses_two :
    parseCpuList (2 ^ 60 - 1) (cpuListText [(0, 3), (8, 8)]) = [0, 1, 2, 3, 8] :=
  cpuListText_parses [(0, 3), (8, 8)] (by decide) (by decide) (2 ^ 60 - 1) (by decide)

end CpuList

end VeloGraphX
