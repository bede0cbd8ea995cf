import Stcbsl.HexImage

/-!
# The Intel HEX Texts that are Accepted

The grammar of the reader, told without it: the lines up to the first end-of-file record are
blank or record lines, each record is allowed at its place, and some data record reaches
above address zero. Nothing behind the first end-of-file record is looked at.

## Which line is reported

A text that is not in the grammar has a first bad line (`FirstBad`), or all of its lines are
good and none of them has data above address zero. In the first case the error carries the
number of that line, counted from one with blank lines included; in the second it is `NoData`, or
`Empty` for a blank text, and carries none. The two exclude each other and an accepted text is
neither, so that the answers of the reader are told apart by the text alone.

## Computing with the grammar

Whether a text is in the grammar is told by its records, and these can be computed from its lines
(`records`, `Listed.eq_records`), so that membership of a given text is settled by evaluation.

## Main results

* `parseLines_stable` — lines behind an end-of-file record change nothing.
* `parse_ne_panic` — no text makes the reader panic.
* `parse_accepts_grammar` — which texts are accepted, and which line an error reports.
-/

namespace Stcbsl

namespace IntelHex

open Text Overwrite

/-! ### Behind the end of the file -/

/-- The line is an end-of-file record. -/
def EndOfFile (raw : List Char) : Prop := ∃ r, RecordLine (trim raw) r ∧ r.rtype = 0x01

/-- Lines without an end-of-file record, and the lines behind them, list their records one after
the other. -/
theorem Listed.cut {ls₁ ls₂ : List (List Char)} {all : List Record} (h : Listed (ls₁ ++ ls₂) all)
    (hno : ∀ raw ∈ ls₁, ¬ EndOfFile raw) :
    ∃ rs tail, all = rs ++ tail ∧ Listed ls₁ rs ∧ (∀ r ∈ rs, r.rtype ≠ 0x01) ∧ Listed ls₂ tail := by
  induction ls₁ generalizing all with
  | nil => exact ⟨[], all, rfl, .nil, by simp, h⟩
  | cons raw ls₁ ih =>
      have hno' : ∀ raw ∈ ls₁, ¬ EndOfFile raw := fun l hl => hno l (List.mem_cons_of_mem _ hl)
      cases h with
      | blank hblank h =>
          obtain ⟨rs, tail, rfl, hrs, heof, htail⟩ := ih h hno'
          exact ⟨rs, tail, rfl, .blank hblank hrs, heof, htail⟩
      | @record _ _ r all hr hne h =>
          obtain ⟨rs, tail, rfl, hrs, heof, htail⟩ := ih h hno'
          refine ⟨r :: rs, tail, rfl, .record hr hne hrs, ?_, htail⟩
          intro r' hr'
          rcases List.mem_cons.mp hr' with rfl | hr'
          · exact hne
          · exact heof r' hr'
      | last hr heof => exact absurd ⟨_, hr, heof⟩ (hno raw (List.mem_cons_self ..))

/-- Lines that differ in the white space around them are the same to the reader. -/
theorem parseLine_congr {raw raw' : List Char} (h : trim raw = trim raw') (line : ℕ)
    (st : ParseState) : parseLine line raw st = parseLine line raw' st := by
  rw [parseLine, parseLine, h]

/-- An end-of-file record leaves the loop, whatever its state. -/
theorem parseLine_of_endOfFile {raw : List Char} (h : EndOfFile raw) (line : ℕ)
    (st : ParseState) : parseLine line raw st = .ok none := by
  obtain ⟨r, hr, heof⟩ := h
  rcases readRecord_cases line (trim raw) with ⟨r', hread, hr'⟩ | ⟨-, hno⟩
  · rw [parseLine_of_record hr.ne_nil hread, hr'.unique hr, applyRecord, heof]
    rfl
  · exact absurd ⟨r, hr⟩ hno

/-- **Lines behind an end-of-file record change nothing.** -/
theorem parseLines_stable {ls ls' : List (List Char)} (h : ls.map trim <+: ls'.map trim)
    (heof : ∃ raw ∈ ls, EndOfFile raw) (idx : ℕ) (st : ParseState) :
    parseLines idx ls' st = parseLines idx ls st := by
  induction ls generalizing ls' idx st with
  | nil =>
      obtain ⟨_, hraw, -⟩ := heof
      cases hraw
  | cons raw ls ih =>
      obtain ⟨raw', ls'', rfl⟩ : ∃ raw' ls'', ls' = raw' :: ls'' := by
        cases ls' with
        | nil => simp at h
        | cons raw' ls'' => exact ⟨raw', ls'', rfl⟩
      rw [List.map_cons, List.map_cons, List.cons_prefix_cons] at h
      rcases h with ⟨htrim, hrest⟩
      by_cases hend : EndOfFile raw
      · have hbreak := parseLine_of_endOfFile hend (idx + 1) st
        rw [parseLines_of_break hbreak, parseLines_of_break]
        rwa [parseLine_congr htrim.symm]
      · have htail : ∃ raw ∈ ls, EndOfFile raw := by
          rcases heof with ⟨raw₀, hmem, hend₀⟩
          rcases List.mem_cons.mp hmem with rfl | hmem
          · exact absurd hend₀ hend
          · exact ⟨raw₀, hmem, hend₀⟩
        simp only [parseLines, parseLine_congr htrim, ih hrest htail]

/-- A text with a record is not blank. -/
theorem trim_ne_nil_of_endOfFile {text raw : List Char} (hmem : raw ∈ lines text)
    (h : EndOfFile raw) : trim text ≠ [] := by
  intro hblank
  obtain ⟨r, hr, -⟩ := h
  refine hr.ne_nil ?_
  rw [trim_eq_nil_iff] at hblank ⊢
  exact fun c hc => hblank c (mem_of_mem_lines hmem hc)

/-- **A text ends with its first end-of-file record.** -/
theorem parse_stable {text : List Char} (h : ∃ raw ∈ lines text, EndOfFile raw)
    (rest : List Char) : parse (text ++ '\n' :: rest) = parse text := by
  have hpre := trim_lines_stable text rest
  have hlines := parseLines_stable hpre h 0 .start
  obtain ⟨raw, hmem, hend⟩ := h
  have hne : trim text ≠ [] := trim_ne_nil_of_endOfFile hmem hend
  have hne' : trim (text ++ '\n' :: rest) ≠ [] := by
    intro hblank
    rw [trim_eq_nil_iff] at hblank
    exact hne (trim_eq_nil_iff.mpr fun c hc => hblank c (List.mem_append_left _ hc))
  rw [parse, parse, if_neg (by simpa using hne'), if_neg (by simpa using hne), hlines]

/-! ### Computing what a text lists -/

/-- The records of some lines, up to and with the first end-of-file record, as far as the lines
can be read. -/
def records : List (List Char) → List Record
  | [] => []
  | raw :: ls =>
      if trim raw = [] then records ls
      else
        match readRecord 0 (trim raw) with
        | .error _ => []
        | .ok r => if r.rtype = 0x01 then [r] else r :: records ls

/-- A record line is read as its record. -/
theorem readRecord_of_recordLine {s : List Char} {r : Record} (h : RecordLine s r) (line : ℕ) :
    readRecord line s = .ok r := by
  obtain ⟨r', hread, hr'⟩ | ⟨-, hno⟩ := readRecord_cases line s
  · rw [hread, hr'.unique h]
  · exact absurd ⟨r, h⟩ hno

/-- **The records of a text can be computed.** -/
theorem Listed.eq_records {ls : List (List Char)} {rs : List Record} (h : Listed ls rs) :
    rs = records ls := by
  induction h with
  | nil => rfl
  | blank hblank _ ih => rw [records, if_pos hblank, ih]
  | record hr hne _ ih =>
      rw [records, if_neg hr.ne_nil, readRecord_of_recordLine hr]
      simp only [if_neg hne, ih]
  | last hr heof =>
      rw [records, if_neg hr.ne_nil, readRecord_of_recordLine hr]
      simp only [if_pos heof]

/-- Whether a line is an end-of-file record can be computed. -/
theorem endOfFile_iff (raw : List Char) :
    EndOfFile raw ↔
      (readRecord 0 (trim raw)).toOption.any (fun r => r.rtype == 0x01) = true := by
  constructor
  · rintro ⟨r, hr, heof⟩
    rw [readRecord_of_recordLine hr]
    simpa [Except.toOption] using heof
  · intro h
    obtain ⟨r, hread, hr⟩ | ⟨⟨e, hread, -⟩, -⟩ := readRecord_cases 0 (trim raw)
    · rw [hread] at h
      exact ⟨r, hr, by simpa [Except.toOption] using h⟩
    · rw [hread] at h
      simp [Except.toOption] at h

instance (raw : List Char) : Decidable (EndOfFile raw) :=
  decidable_of_iff _ (endOfFile_iff raw).symm

/-! ### The grammar -/

/-- The line at position `k` is the first bad one of the text. -/
def FirstBad (text : List Char) (k : ℕ) : Prop := BadFrom [] (lines text) k

/-- **A text is in the grammar** where its records are allowed at their places and one of
them reaches above address zero. -/
structure Accepted (text : List Char) (rs : List Record) : Prop where
  listed : Listed (lines text) rs
  allowed : ∀ i r, rs[i]? = some r → Allowed (baseAfter (rs.take i)) r
  data : ∃ p ∈ placed rs, 0 < p.1 + p.2.length

/-- **The reader never panics**, whatever the text. -/
theorem parse_ne_panic (text : List Char) : parse text ≠ .error .panic := by
  intro hpanic
  rcases parse_cases text with
    ⟨rs, -, -, ⟨-, st, -, hparse⟩ | ⟨-, e, hparse, -⟩⟩ | ⟨k, e, -, hparse, -⟩
  all_goals
    rw [hpanic] at hparse
    cases hparse

/-- An accepted text has no bad line. -/
theorem Accepted.not_firstBad {text : List Char} {rs : List Record} (h : Accepted text rs)
    (k : ℕ) : ¬ FirstBad text k :=
  fun hbad => hbad.not_allowedFrom h.listed h.allowed

/-- The reader accepts the texts of the grammar, and no other. -/
theorem parse_ok_iff (text : List Char) :
    (∃ img, parse text = .ok img) ↔ ∃ rs, Accepted text rs := by
  constructor
  · rintro ⟨img, hok⟩
    rcases parse_cases text with
      ⟨rs, hlisted, hallowed, ⟨hpos, -⟩ | ⟨-, e, hparse, -⟩⟩ | ⟨k, e, -, hparse, -⟩
    · exact ⟨rs, hlisted, hallowed, extent_pos_iff.mp hpos⟩
    · rw [hok] at hparse
      cases hparse
    · rw [hok] at hparse
      cases hparse
  · rintro ⟨rs, hrs⟩
    rcases parse_cases text with
      ⟨rs', hlisted, -, ⟨-, st, -, hparse⟩ | ⟨hzero, -⟩⟩ | ⟨k, e, hbad, -, -⟩
    · exact ⟨_, hparse⟩
    · have hpos := extent_pos_iff.mpr hrs.data
      rw [hrs.listed.unique hlisted, hzero] at hpos
      exact absurd hpos (Nat.lt_irrefl 0)
    · exact absurd hbad (hrs.not_firstBad k)

/-- The first bad line is reported. -/
theorem parse_of_firstBad {text : List Char} {k : ℕ} (h : FirstBad text k) :
    ∃ e, parse text = .error (.error e) ∧ e.line = some (k + 1) := by
  rcases parse_cases text with ⟨rs, hlisted, hallowed, -⟩ | ⟨k', e, hbad, hparse, hline⟩
  · exact absurd hallowed (h.not_allowedFrom hlisted)
  · exact ⟨e, hparse, by rw [hline, hbad.unique h]⟩

/-- A line that is reported is the first bad one. -/
theorem line_of_parse {text : List Char} {e : HexError} (h : parse text = .error (.error e)) :
    (∃ k, FirstBad text k ∧ e.line = some (k + 1)) ∨
      ((∀ k, ¬ FirstBad text k) ∧ e.line = none) := by
  rcases parse_cases text with
    ⟨rs, hlisted, hallowed, ⟨-, st, -, hparse⟩ | ⟨-, e', hparse, hline⟩⟩ |
      ⟨k, e', hbad, hparse, hline⟩
  · rw [hparse] at h
    cases h
  · rw [hparse] at h
    cases h
    exact .inr ⟨fun k hbad => hbad.not_allowedFrom hlisted hallowed, hline⟩
  · rw [hparse] at h
    cases h
    exact .inl ⟨k, hbad, hline⟩

/-- **The reader accepts exactly its grammar.** It never panics; of a text it does not accept
it reports the first bad line, counted from one, if there is one; and nothing behind the
first end-of-file record changes the result. -/
theorem parse_accepts_grammar (text : List Char) :
    parse text ≠ .error .panic ∧
      ((∃ img, parse text = .ok img) ↔ ∃ rs, Accepted text rs) ∧
      (∀ k, FirstBad text k → ∃ e, parse text = .error (.error e) ∧ e.line = some (k + 1)) ∧
      (∀ e, parse text = .error (.error e) →
        (∃ k, FirstBad text k ∧ e.line = some (k + 1)) ∨
          ((∀ k, ¬ FirstBad text k) ∧ e.line = none)) ∧
      ((∃ raw ∈ lines text, EndOfFile raw) →
        ∀ rest, parse (text ++ '\n' :: rest) = parse text) :=
  ⟨parse_ne_panic text, parse_ok_iff text, fun _ => parse_of_firstBad, fun _ => line_of_parse,
    parse_stable⟩

end IntelHex

end Stcbsl
