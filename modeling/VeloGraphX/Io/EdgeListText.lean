import Mathlib
import VeloGraphX.Lib.TextStream
import VeloGraphX.Storage.CsrGraph

/-!
# Edge lists as text

`load_edge_list` reads a file line by line. Blank lines and lines that begin with `#` or `%` say
nothing; on every other line two numbers must stand, and nothing after them. The numbers are read
as 64-bit integers, with all the forms that this allows, and only then compared with the range of
vertex ids.

`RowMeans` and `RowFails` say what a line stands for, and why it stands for nothing, without
saying how it is read.
-/

namespace VeloGraphX

open TextStream

namespace EdgeListText

/-- `trim_left`. -/
def trimLeft (value : List UInt8) : List UInt8 := value.dropWhile isSpace

/-- The text of an error at a line. -/
def atLine (what : String) (lineNumber : ℕ) : String :=
  what ++ " at line " ++ toString lineNumber

/-- One turn of the reading loop: the edge that the line adds, if any. -/
def readRow (lineNumber : ℕ) (line : List UInt8) :
    Except Exception (Option (VertexId × VertexId)) :=
  match trimLeft line with
  | [] => .ok none
  | c :: view =>
    if c == 35 || c == 37 then .ok none
    else
      let first := InputText.read ⟨c :: view, false, false⟩
      let second := first.2.read
      if second.2.fail then .error (.runtimeError (atLine "malformed edge list" lineNumber))
      else if 2 ^ 32 - 1 < first.1 || 2 ^ 32 - 1 < second.1 then
        .error (.overflowError (atLine "vertex id exceeds uint32 range" lineNumber))
      else if !second.2.skipSpace.eof then
        .error (.runtimeError (atLine "unexpected trailing data" lineNumber))
      else .ok (some (Fin.ofNat _ first.1, Fin.ofNat _ second.1))

/-- The reading loop, after `lineNumber` lines. -/
def readRows : ℕ → List (List UInt8) → List (VertexId × VertexId) →
    Except Exception (List (VertexId × VertexId))
  | _, [], edges => .ok edges
  | lineNumber, line :: rest, edges =>
    match readRow (lineNumber + 1) line with
    | .error e => .error e
    | .ok none => readRows (lineNumber + 1) rest edges
    | .ok (some edge) => readRows (lineNumber + 1) rest (edges ++ [edge])

/-- `load_edge_list`; there are no bytes when the file cannot be opened. -/
def loadEdgeList (file : Option (List UInt8)) (directed : Bool) : Except Exception CsrGraph :=
  match file with
  | none => .error (.runtimeError "unable to open edge-list file")
  | some bytes => (readRows 0 (lines bytes) []).map fun edges => CsrGraph.create edges directed

/-- A line begins with two numbers: white space, a number, white space or a sign, a number. -/
def RowBegins (line : List UInt8) (u v : ℕ) (rest : List UInt8) : Prop :=
  ∃ lead first gap second, line = lead ++ (first ++ (gap ++ (second ++ rest))) ∧ Blank lead ∧
    Writes first u ∧ Blank gap ∧ NoDigit (gap ++ (second ++ rest)) ∧ Writes second v ∧ NoDigit rest

/-- What a line stands for: nothing, or an edge. -/
inductive RowMeans : List UInt8 → Option (VertexId × VertexId) → Prop
  | blank {line : List UInt8} (h : Blank line) : RowMeans line none
  | comment {lead rest : List UInt8} {c : UInt8} (hlead : Blank lead) (hc : c = 35 ∨ c = 37) :
      RowMeans (lead ++ c :: rest) none
  | edge {line rest : List UInt8} {u v : VertexId} (h : RowBegins line u.val v.val rest)
      (hrest : Blank rest) : RowMeans line (some (u, v))

/-- Why a line stands for nothing that is allowed. -/
inductive RowFails (lineNumber : ℕ) (line : List UInt8) : Exception → Prop
  | malformed (hskip : ¬ RowMeans line none) (h : ∀ u v rest, ¬ RowBegins line u v rest) :
      RowFails lineNumber line (.runtimeError (atLine "malformed edge list" lineNumber))
  | overflow {u v : ℕ} {rest : List UInt8} (h : RowBegins line u v rest)
      (hlarge : 2 ^ 32 ≤ u ∨ 2 ^ 32 ≤ v) :
      RowFails lineNumber line
        (.overflowError (atLine "vertex id exceeds uint32 range" lineNumber))
  | trailing {u v : ℕ} {rest : List UInt8} (h : RowBegins line u v rest) (hu : u < 2 ^ 32)
      (hv : v < 2 ^ 32) (hrest : ¬ Blank rest) :
      RowFails lineNumber line (.runtimeError (atLine "unexpected trailing data" lineNumber))

/-- Two numbers at the beginning of a line are read, and the second read stops after them. -/
theorem RowBegins.read {line rest : List UInt8} {u v : ℕ} (h : RowBegins line u v rest) :
    ∃ mid, readNumber line = (u, mid) ∧ mid.read = (v, ⟨rest, rest.isEmpty, false⟩) := by
  obtain ⟨lead, first, gap, second, rfl, hlead, hfirst, hgap, hmid, hsecond, hrest⟩ := h
  refine ⟨_, readNumber_writes hlead hfirst hmid, ?_⟩
  obtain ⟨b, more, rfl, -⟩ := hsecond.head
  have hne : (gap ++ (b :: more ++ rest)).isEmpty = false := by
    cases gap <;> rfl
  rw [hne]
  exact readNumber_writes hgap hsecond hrest

/-- Reading from a text that has failed, or has ended, fails. -/
theorem read_fails {s : InputText} (h : s.eof = true ∨ s.fail = true) : s.read.2.fail = true := by
  rw [InputText.read, if_pos (Bool.or_eq_true_iff.mpr h)]

/-- Two reads that do not fail have read two numbers at the beginning of the line. -/
theorem begins_of_read {line : List UInt8} (hfail : (readNumber line).2.read.2.fail = false) :
    RowBegins line (readNumber line).1 (readNumber line).2.read.1
        (readNumber line).2.read.2.rest ∧
      (readNumber line).2.read.2.eof = (readNumber line).2.read.2.rest.isEmpty := by
  generalize hfirst : readNumber line = firstRead at hfail ⊢
  obtain ⟨u, mid⟩ := firstRead
  dsimp only at hfail ⊢
  have hopen : mid.eof = false ∧ mid.fail = false := by
    constructor
    · by_contra h
      rw [read_fails (.inl (by simpa using h))] at hfail
      exact absurd hfail nofun
    · by_contra h
      rw [read_fails (.inr (by simpa using h))] at hfail
      exact absurd hfail nofun
  have hsecond : mid.read = readNumber mid.rest := by
    rw [InputText.read, hopen.1, hopen.2]
    rfl
  rw [hsecond] at hfail ⊢
  obtain ⟨lead, first, hline, hlead, hu, hmid, -⟩ := writes_of_readNumber hfirst hopen.2
  obtain ⟨gap, second, hrest, hgap, hv, hnodigit, heof⟩ :=
    writes_of_readNumber (s := (readNumber mid.rest).2) rfl hfail
  refine ⟨⟨lead, first, gap, second, ?_, hlead, hu, hgap, ?_, hv, hnodigit⟩, heof⟩
  · rw [← hrest]
    exact hline
  · rw [← hrest]
    exact hmid

/-- Leading white space makes no difference to a number. -/
theorem readNumber_trimLeft (line : List UInt8) : readNumber (trimLeft line) = readNumber line := by
  unfold readNumber trimLeft
  rw [List.dropWhile_idempotent]

/-- The text is at its end, after white space, when nothing but white space was left. -/
theorem skipSpace_eof (rest : List UInt8) :
    (InputText.mk rest rest.isEmpty false).skipSpace.eof = true ↔ Blank rest := by
  cases rest with
  | nil => exact ⟨fun _ => nofun, fun _ => rfl⟩
  | cons b rest =>
    rw [blank_iff, ← List.isEmpty_iff]
    rfl

/-- A line says nothing when it is blank or begins with a comment character. -/
theorem rowMeans_none_iff (line : List UInt8) :
    RowMeans line none ↔
      trimLeft line = [] ∨ ∃ c view, trimLeft line = c :: view ∧ (c == 35 || c == 37) = true := by
  constructor
  · intro h
    cases h with
    | blank h => exact .inl ((blank_iff line).mp h)
    | @comment lead rest c hlead hc =>
      refine .inr ⟨c, rest, dropWhile_blank hlead fun b hb => ?_, ?_⟩
      · obtain rfl := Option.mem_some_iff.mp hb
        rcases hc with rfl | rfl <;> rfl
      · rcases hc with rfl | rfl <;> rfl
  · rintro (h | ⟨c, view, h, hc⟩)
    · exact .blank ((blank_iff line).mpr h)
    · have hline : line = line.takeWhile isSpace ++ c :: view := by
        rw [← h, trimLeft, List.takeWhile_append_dropWhile]
      rw [hline]
      refine .comment of_mem_takeWhile ?_
      exact (Bool.or_eq_true_iff.mp hc).imp eq_of_beq eq_of_beq

/-- A line that begins with a number is not one that says nothing. -/
theorem RowBegins.not_skipped {line rest : List UInt8} {u v : ℕ} (h : RowBegins line u v rest) :
    ¬ RowMeans line none := by
  obtain ⟨lead, first, gap, second, rfl, hlead, hfirst, -⟩ := h
  obtain ⟨b, more, rfl, hb⟩ := hfirst.head
  have hkind : isSpace b = false ∧ ¬ (b == 35 || b == 37) = true := by
    rcases hb with hdigit | hsign
    · refine ⟨(digit_kind hdigit).1, fun hc => ?_⟩
      rcases Bool.or_eq_true_iff.mp hc with hc | hc <;> rw [eq_of_beq hc] at hdigit <;>
        exact absurd hdigit (by decide)
    · rcases Bool.or_eq_true_iff.mp hsign with hs | hs <;> rw [eq_of_beq hs] <;>
        exact ⟨rfl, by decide⟩
  have htrim : trimLeft (lead ++ (b :: more ++ (gap ++ (second ++ rest)))) =
      b :: (more ++ (gap ++ (second ++ rest))) :=
    dropWhile_blank hlead fun c hc => (Option.mem_some_iff.mp hc) ▸ hkind.1
  rw [rowMeans_none_iff, htrim]
  rintro (hnil | ⟨c, view, hcons, hc⟩)
  · exact absurd hnil nofun
  · exact hkind.2 ((List.cons.inj hcons).1 ▸ hc)

/-- What a line that says something is turned into. -/
theorem readRow_of_not_skipped (lineNumber : ℕ) {line : List UInt8} (h : ¬ RowMeans line none) :
    readRow lineNumber line =
      if (readNumber line).2.read.2.fail then
        .error (.runtimeError (atLine "malformed edge list" lineNumber))
      else if 2 ^ 32 - 1 < (readNumber line).1 || 2 ^ 32 - 1 < (readNumber line).2.read.1 then
        .error (.overflowError (atLine "vertex id exceeds uint32 range" lineNumber))
      else if !(readNumber line).2.read.2.skipSpace.eof then
        .error (.runtimeError (atLine "unexpected trailing data" lineNumber))
      else .ok (some (Fin.ofNat _ (readNumber line).1, Fin.ofNat _ (readNumber line).2.read.1)) := by
  rw [rowMeans_none_iff, not_or] at h
  obtain ⟨hne, hcomment⟩ := h
  obtain ⟨c, view, hview⟩ := List.exists_cons_of_ne_nil hne
  have hc : ¬ (c == 35 || c == 37) = true := fun hc => hcomment ⟨c, view, hview, hc⟩
  have hread : InputText.read ⟨c :: view, false, false⟩ = readNumber line := by
    rw [← readNumber_trimLeft, hview]
    rfl
  unfold readRow
  rw [hview]
  dsimp only
  rw [if_neg hc, hread]

/-- A line that begins with two numbers is turned into what they and the rest of it say. -/
theorem RowBegins.readRow_eq (lineNumber : ℕ) {line rest : List UInt8} {u v : ℕ}
    (h : RowBegins line u v rest) :
    readRow lineNumber line =
      if 2 ^ 32 - 1 < u || 2 ^ 32 - 1 < v then
        .error (.overflowError (atLine "vertex id exceeds uint32 range" lineNumber))
      else if !(InputText.mk rest rest.isEmpty false).skipSpace.eof then
        .error (.runtimeError (atLine "unexpected trailing data" lineNumber))
      else .ok (some (Fin.ofNat _ u, Fin.ofNat _ v)) := by
  obtain ⟨mid, hfirst, hsecond⟩ := h.read
  rw [readRow_of_not_skipped lineNumber h.not_skipped, hfirst]
  dsimp only
  rw [hsecond]
  dsimp only
  rw [if_neg Bool.false_ne_true]

/-- A line that says nothing adds nothing. -/
theorem readRow_skipped (lineNumber : ℕ) {line : List UInt8} (h : RowMeans line none) :
    readRow lineNumber line = .ok none := by
  unfold readRow
  rcases (rowMeans_none_iff line).mp h with hnil | ⟨c, view, hcons, hc⟩
  · rw [hnil]
  · rw [hcons]
    exact if_pos hc

/-- What a line stands for is what it is turned into. -/
theorem readRow_of_means (lineNumber : ℕ) {line : List UInt8}
    {entry : Option (VertexId × VertexId)} (h : RowMeans line entry) :
    readRow lineNumber line = .ok entry := by
  cases entry with
  | none => exact readRow_skipped lineNumber h
  | some edge =>
    cases h with
    | @edge line rest u v h hrest =>
      have hcast : ∀ w : VertexId, Fin.ofNat (2 ^ 32) w.val = w :=
        fun w => Fin.ext (Nat.mod_eq_of_lt w.isLt)
      have hsmall : ¬ ((2 ^ 32 - 1 < u.val : Bool) || (2 ^ 32 - 1 < v.val : Bool)) = true := by
        have hu := u.isLt
        have hv := v.isLt
        simp only [Bool.or_eq_true, decide_eq_true_eq]
        omega
      rw [h.readRow_eq, if_neg hsmall, (skipSpace_eof rest).mpr hrest, hcast, hcast]
      rfl

/-- Why a line fails is what is thrown. -/
theorem readRow_of_fails {lineNumber : ℕ} {line : List UInt8} {e : Exception}
    (h : RowFails lineNumber line e) : readRow lineNumber line = .error e := by
  cases h with
  | malformed hskip h =>
    have hfail : (readNumber line).2.read.2.fail = true := by
      by_contra hok
      exact h _ _ _ (begins_of_read (Bool.not_eq_true _ ▸ hok)).1
    rw [readRow_of_not_skipped lineNumber hskip, if_pos hfail]
  | @overflow u v rest h hlarge =>
    have hcond : ((2 ^ 32 - 1 < u : Bool) || (2 ^ 32 - 1 < v : Bool)) = true := by
      simp only [Bool.or_eq_true, decide_eq_true_eq]
      omega
    rw [h.readRow_eq, if_pos hcond]
  | @trailing u v rest h hu hv hrest =>
    have hcond : ¬ ((2 ^ 32 - 1 < u : Bool) || (2 ^ 32 - 1 < v : Bool)) = true := by
      simp only [Bool.or_eq_true, decide_eq_true_eq]
      omega
    have heof : (InputText.mk rest rest.isEmpty false).skipSpace.eof = false :=
      Bool.eq_false_iff.mpr fun heof => hrest ((skipSpace_eof rest).mp heof)
    rw [h.readRow_eq, if_neg hcond, heof]
    rfl

/-- Every line stands for something, or fails for one of the reasons. -/
theorem means_or_fails (lineNumber : ℕ) (line : List UInt8) :
    (∃ entry, RowMeans line entry) ∨ ∃ e, RowFails lineNumber line e := by
  by_cases hskip : RowMeans line none
  · exact .inl ⟨none, hskip⟩
  · by_cases hbegins : ∃ u v rest, RowBegins line u v rest
    · obtain ⟨u, v, rest, h⟩ := hbegins
      by_cases hsmall : u < 2 ^ 32 ∧ v < 2 ^ 32
      · by_cases hrest : Blank rest
        · exact .inl ⟨_, .edge (u := ⟨u, hsmall.1⟩) (v := ⟨v, hsmall.2⟩) h hrest⟩
        · exact .inr ⟨_, .trailing h hsmall.1 hsmall.2 hrest⟩
      · exact .inr ⟨_, .overflow h (by omega)⟩
    · exact .inr ⟨_, .malformed hskip fun u v rest h => hbegins ⟨u, v, rest, h⟩⟩

/-- The entries that are edges. -/
theorem reduceOption_cons (entry : Option (VertexId × VertexId))
    (entries : List (Option (VertexId × VertexId))) :
    (entry :: entries).reduceOption = entry.toList ++ entries.reduceOption := by
  cases entry <;> rfl

/-- One turn of the loop. -/
theorem readRows_cons (lineNumber : ℕ) (line : List UInt8) (rest : List (List UInt8))
    (edges : List (VertexId × VertexId)) :
    readRows lineNumber (line :: rest) edges =
      (readRow (lineNumber + 1) line).bind fun entry =>
        readRows (lineNumber + 1) rest (edges ++ entry.toList) := by
  rw [readRows]
  cases readRow (lineNumber + 1) line with
  | error e => rfl
  | ok entry =>
    cases entry with
    | none => exact congrArg (readRows (lineNumber + 1) rest) (List.append_nil edges).symm
    | some edge => rfl

/-- The loop returns the edges of all lines when every line stands for something. -/
theorem readRows_of_means {written : List (List UInt8)}
    {entries : List (Option (VertexId × VertexId))} (h : List.Forall₂ RowMeans written entries)
    (lineNumber : ℕ) (edges : List (VertexId × VertexId)) :
    readRows lineNumber written edges = .ok (edges ++ entries.reduceOption) := by
  induction h generalizing lineNumber edges with
  | nil => exact congrArg Except.ok (List.append_nil edges).symm
  | cons hline _ ih =>
    rw [readRows_cons, readRow_of_means _ hline, reduceOption_cons, ← List.append_assoc]
    exact ih _ _

/-- The loop throws what the first line that fails asks for. -/
theorem readRows_of_fails {before after : List (List UInt8)} {line : List UInt8}
    (hbefore : ∀ l ∈ before, ∃ entry, RowMeans l entry) {lineNumber : ℕ} {e : Exception}
    (h : RowFails (lineNumber + before.length + 1) line e)
    (edges : List (VertexId × VertexId)) :
    readRows lineNumber (before ++ line :: after) edges = .error e := by
  induction before generalizing lineNumber edges with
  | nil =>
    rw [List.nil_append, readRows_cons]
    exact congrArg (Except.bind · _) (readRow_of_fails h)
  | cons l before ih =>
    obtain ⟨entry, hentry⟩ := hbefore l List.mem_cons_self
    rw [List.cons_append, readRows_cons, readRow_of_means _ hentry]
    refine ih (fun k hk => hbefore k (List.mem_cons_of_mem _ hk)) ?_ _
    rw [List.length_cons] at h
    rwa [Nat.add_right_comm lineNumber 1]

/-- Every line stands for something, or there is a first one that does not. -/
theorem means_or_first_fails (lineNumber : ℕ) (written : List (List UInt8)) :
    (∃ entries, List.Forall₂ RowMeans written entries) ∨
      ∃ before line after e, written = before ++ line :: after ∧
        (∀ l ∈ before, ∃ entry, RowMeans l entry) ∧
        RowFails (lineNumber + before.length + 1) line e := by
  induction written generalizing lineNumber with
  | nil => exact .inl ⟨[], .nil⟩
  | cons line rest ih =>
    rcases means_or_fails (lineNumber + 1) line with ⟨entry, hentry⟩ | ⟨e, he⟩
    · rcases ih (lineNumber + 1) with ⟨entries, hentries⟩ | ⟨before, l, after, e, rfl, hbefore, he⟩
      · exact .inl ⟨entry :: entries, .cons hentry hentries⟩
      · refine .inr ⟨line :: before, l, after, e, rfl, fun k hk => ?_, ?_⟩
        · rcases List.mem_cons.mp hk with rfl | hk
          · exact ⟨entry, hentry⟩
          · exact hbefore k hk
        · rwa [List.length_cons, ← Nat.add_assoc, Nat.add_right_comm lineNumber]
    · exact .inr ⟨[], line, rest, e, rfl, nofun, he⟩

/-- Where every line means something, the graph is that of the edges the lines mean. -/
theorem loadEdgeList_of_means {bytes : List UInt8} {entries : List (Option (VertexId × VertexId))}
    (h : List.Forall₂ RowMeans (lines bytes) entries) (directed : Bool) :
    loadEdgeList (some bytes) directed = .ok (CsrGraph.create entries.reduceOption directed) := by
  rw [loadEdgeList, readRows_of_means h]
  rfl

/-- `load_edge_list` returns a graph exactly when every line of the file is blank, a comment, or
two numbers in the range of vertex ids with nothing after them, and then the graph of these edges;
it throws exactly what the first other line asks for, under the number of that line. -/
theorem loadEdgeList_iff (bytes : List UInt8) (directed : Bool) :
    (∀ g, loadEdgeList (some bytes) directed = .ok g ↔
      ∃ entries, List.Forall₂ RowMeans (lines bytes) entries ∧
        g = CsrGraph.create entries.reduceOption directed) ∧
    ∀ e, loadEdgeList (some bytes) directed = .error e ↔
      ∃ before line after, lines bytes = before ++ line :: after ∧
        (∀ l ∈ before, ∃ entry, RowMeans l entry) ∧ RowFails (before.length + 1) line e := by
  have herror : ∀ {before line after e}, lines bytes = before ++ line :: after →
      (∀ l ∈ before, ∃ entry, RowMeans l entry) → RowFails (before.length + 1) line e →
      loadEdgeList (some bytes) directed = .error e := fun hlines hbefore he => by
    rw [loadEdgeList, hlines, readRows_of_fails hbefore (by rwa [Nat.zero_add])]
    rfl
  have hcases := means_or_first_fails 0 (lines bytes)
  simp only [Nat.zero_add] at hcases
  refine ⟨fun g => ⟨fun h => ?_, ?_⟩, fun e => ⟨fun h => ?_, ?_⟩⟩
  · rcases hcases with ⟨entries, hentries⟩ | ⟨before, line, after, e, hlines, hbefore, he⟩
    · have hload := loadEdgeList_of_means hentries directed
      exact ⟨entries, hentries, Except.ok.inj (h.symm.trans hload)⟩
    · exact absurd (h.symm.trans (herror hlines hbefore he)) nofun
  · rintro ⟨entries, hentries, rfl⟩
    exact loadEdgeList_of_means hentries directed
  · rcases hcases with ⟨entries, hentries⟩ | ⟨before, line, after, e', hlines, hbefore, he⟩
    · exact absurd (h.symm.trans (loadEdgeList_of_means hentries directed)) nofun
    · have heq := Except.error.inj (h.symm.trans (herror hlines hbefore he))
      exact ⟨before, line, after, hlines, hbefore, heq ▸ he⟩
  · rintro ⟨before, line, after, hlines, hbefore, he⟩
    exact herror hlines hbefore he

/-- An edge as it is written on a line: white space stands between its ids, and may stand after
them. -/
structure EdgeRow where
  edge : VertexId × VertexId
  gap : List UInt8
  trail : List UInt8
  gap_blank : Blank gap
  gap_ne : gap ≠ []
  trail_blank : Blank trail
  one_line : 10 ∉ gap ++ trail

/-- The line. -/
def EdgeRow.text (row : EdgeRow) : List UInt8 :=
  digitsOf row.edge.1.val ++ (row.gap ++ (digitsOf row.edge.2.val ++ row.trail))

/-- An edge list as a text. -/
def edgeListText (rows : List EdgeRow) : List UInt8 := rows.flatMap fun row => row.text ++ [10]

/-- White space does not begin with a digit. -/
theorem noDigit_of_blank {gap rest : List UInt8} (hgap : Blank gap) (hrest : gap = [] → NoDigit rest) :
    NoDigit (gap ++ rest) := by
  cases gap with
  | nil => exact hrest rfl
  | cons b gap =>
    intro c hc
    obtain rfl := Option.mem_some_iff.mp hc
    by_contra hdigit
    have hspace := (digit_kind (Bool.eq_true_of_not_eq_false hdigit)).1
    rw [hgap b List.mem_cons_self] at hspace
    exact absurd hspace nofun

/-- A line feed is not a digit. -/
theorem not_mem_digits {text : List UInt8} (h : Digits text) : 10 ∉ text :=
  fun hmem => absurd (h.2 10 hmem) (by decide)

/-- A line that was written stands for its edge. -/
theorem EdgeRow.means (row : EdgeRow) : RowMeans row.text (some row.edge) := by
  have hlt : ∀ v : VertexId, v.val < 2 ^ 64 := fun v => v.isLt.trans (by norm_num)
  have hend : NoDigit (row.trail ++ []) := noDigit_of_blank row.trail_blank fun _ => nofun
  rw [List.append_nil] at hend
  have hbegins : RowBegins row.text row.edge.1.val row.edge.2.val row.trail :=
    ⟨[], digitsOf row.edge.1.val, row.gap, digitsOf row.edge.2.val, rfl, nofun,
      writes_digitsOf (hlt _), row.gap_blank,
      noDigit_of_blank row.gap_blank fun h => absurd h row.gap_ne, writes_digitsOf (hlt _), hend⟩
  exact .edge hbegins row.trail_blank

/-- It is one line. -/
theorem EdgeRow.lineFeed_not_mem (row : EdgeRow) : 10 ∉ row.text := by
  obtain ⟨hgap, htrail⟩ := not_or.mp (List.mem_append.not.mp row.one_line)
  have hfirst := not_mem_digits (digitsOf_spec row.edge.1.val).1
  have hsecond := not_mem_digits (digitsOf_spec row.edge.2.val).1
  simp only [EdgeRow.text, List.mem_append, not_or]
  exact ⟨hfirst, hgap, hsecond, htrail⟩

/-- Whatever white space is put between the ids and at the end of each line, an edge list that is
written as a text is loaded as the graph of its edges, which holds their arcs. -/
theorem edgeListText_loads (rows : List EdgeRow) (directed : Bool) :
    loadEdgeList (some (edgeListText rows)) directed =
        .ok (CsrGraph.create (rows.map EdgeRow.edge) directed) ∧
      (CsrGraph.create (rows.map EdgeRow.edge) directed).Holds
        (ArcSet.ofEdges directed (rows.map EdgeRow.edge)) := by
  refine ⟨?_, CsrGraph.holds_create _ directed⟩
  have hlines : lines (edgeListText rows) = rows.map EdgeRow.text := by
    have hwritten : lines ((rows.map EdgeRow.text).flatMap fun line => line ++ [10]) =
        rows.map EdgeRow.text := lines_flatMap fun line hmem => by
      obtain ⟨row, -, rfl⟩ := List.mem_map.mp hmem
      exact row.lineFeed_not_mem
    rwa [List.flatMap_map] at hwritten
  have hmeans : List.Forall₂ RowMeans (rows.map EdgeRow.text)
      (rows.map fun row => some row.edge) := by
    rw [List.forall₂_map_left_iff, List.forall₂_map_right_iff, List.forall₂_same]
    exact fun row _ => row.means
  have hedges : (rows.map fun row => some row.edge).reduceOption = rows.map EdgeRow.edge := by
    rw [List.reduceOption, List.filterMap_map]
    exact congrFun List.filterMap_eq_map rows
  have hload := loadEdgeList_of_means (hlines ▸ hmeans) directed
  rwa [hedges] at hload

end EdgeListText

end VeloGraphX
