import Mathlib.Data.List.DropRight
import Mathlib.Tactic.Common

/-!
# Text: Trimming, Lines and UTF-8

Text is a list of Unicode scalar values. This module defines the white space around a text,
its lines and its UTF-8 bytes the way string libraries have them: a line ends at a line
feed, the feed and a carriage return before it are no part of the line, and there is no
empty line behind the last feed.

## Lines and what is around them

A text is cut into pieces first, each up to and with a line feed, and the pieces make up the
text again (`flatten_splitInclusive`). A line is a piece without its ending. Since an ending is
white space, a reader that trims its lines anyway sees the trimmed pieces (`map_trim_lines`),
and a statement about trimmed lines need not tell the two ways to end a line apart.

Two locality statements follow, for readers that go line by line. What stands behind a line feed
does not matter to the lines before it, and a change of a character that is no line feed matters
to the line with as many others before it as there are line feeds before the character.

## Main results

* `trim_eq_nil_iff` — trimming leaves nothing exactly of blank texts.
* `trim_lines_stable` — what follows a line feed does not change the trimmed lines before
  it.
* `lines_around` — changing a character changes one line.
* `utf8_cases` — the first byte of a character tells whether it is an ASCII one.
-/

namespace Text

/-! ### White space -/

/-- The Unicode property `White_Space`. -/
def isWhitespace (c : Char) : Bool :=
  let n := c.toNat
  (0x09 ≤ n && n ≤ 0x0D) || n == 0x20 || n == 0x85 || n == 0xA0 || n == 0x1680 ||
    (0x2000 ≤ n && n ≤ 0x200A) || n == 0x2028 || n == 0x2029 || n == 0x202F || n == 0x205F ||
    n == 0x3000

/-- A text without the white space at its end. -/
def trimEnd (s : List Char) : List Char := s.rdropWhile isWhitespace

/-- A text without the white space at its two ends. -/
def trim (s : List Char) : List Char := (trimEnd s).dropWhile isWhitespace

/-- Trimming the end, by the first character. -/
theorem trimEnd_cons (c : Char) (s : List Char) :
    trimEnd (c :: s) =
      if trimEnd s = [] then if isWhitespace c then [] else [c] else c :: trimEnd s := by
  simp only [trimEnd, List.rdropWhile, List.reverse_cons, List.dropWhile_append,
    List.isEmpty_iff, List.reverse_eq_nil_iff]
  split
  · by_cases hc : isWhitespace c = true <;> simp [hc]
  · simp

/-- Trimming leaves nothing exactly of blank texts. -/
theorem trim_eq_nil_iff {s : List Char} : trim s = [] ↔ ∀ c ∈ s, isWhitespace c = true := by
  have hend : trimEnd s = [] ↔ ∀ c ∈ s, isWhitespace c = true := List.rdropWhile_eq_nil_iff
  rw [← hend, trim, List.dropWhile_eq_nil_iff]
  constructor
  · intro h
    by_contra hne
    exact List.rdropWhile_last_not isWhitespace s hne (h _ (List.getLast_mem hne))
  · intro h c hc
    rw [h] at hc
    cases hc

/-- What stands in front of a character that is no white space stays when the end is trimmed. -/
theorem trimEnd_of_not_isWhitespace {c : Char} (hc : isWhitespace c = false) (x y : List Char) :
    trimEnd (x ++ c :: y) = x ++ c :: trimEnd y := by
  induction x with
  | nil =>
      rw [List.nil_append, List.nil_append, trimEnd_cons]
      by_cases hy : trimEnd y = [] <;> simp [hy, hc]
  | cons d x ih =>
      rw [List.cons_append, trimEnd_cons, ih, if_neg (by simp)]
      rfl

/-- **Around a character that is no white space** a text is trimmed on either side apart. -/
theorem trim_of_not_isWhitespace {c : Char} (hc : isWhitespace c = false) (x y : List Char) :
    trim (x ++ c :: y) = x.dropWhile isWhitespace ++ c :: trimEnd y := by
  rw [trim, trimEnd_of_not_isWhitespace hc, List.dropWhile_append]
  split
  · rename_i hx
    rw [List.isEmpty_iff.mp hx, List.dropWhile_cons_of_neg (by simp [hc])]
    rfl
  · rfl

/-! ### Lines -/

/-- The pieces of a text, each up to and with a line feed. -/
def splitInclusive : List Char → List (List Char)
  | [] => []
  | c :: s =>
      if c = '\n' then [c] :: splitInclusive s
      else
        match splitInclusive s with
        | [] => [[c]]
        | piece :: pieces => (c :: piece) :: pieces

/-- A text without a given last character, if it ends in it. -/
def stripLast (c : Char) (s : List Char) : Option (List Char) :=
  if s.getLast? = some c then some s.dropLast else none

/-- A piece without its line ending. -/
def stripLineEnding (piece : List Char) : List Char :=
  match stripLast '\n' piece with
  | none => piece
  | some line => (stripLast '\r' line).getD line

/-- The lines of a text. -/
def lines (s : List Char) : List (List Char) := (splitInclusive s).map stripLineEnding

/-- White space stripped from the end changes nothing about what trimming the end leaves. -/
theorem trimEnd_of_stripLast {c : Char} (hc : isWhitespace c = true) {s t : List Char}
    (h : stripLast c s = some t) : trimEnd t = trimEnd s := by
  rw [stripLast] at h
  split_ifs at h with hlast
  obtain ⟨hne, hlast⟩ := List.getLast?_eq_some_iff.mp hlast
  cases h
  subst hlast
  rw [List.dropLast_concat, trimEnd, trimEnd, List.rdropWhile_concat_pos _ _ _ hc]

/-- The line ending is white space: it is trimmed off anyway. -/
theorem trimEnd_stripLineEnding (piece : List Char) :
    trimEnd (stripLineEnding piece) = trimEnd piece := by
  have hfeed : isWhitespace '\n' = true := by decide
  have hreturn : isWhitespace '\r' = true := by decide
  rw [stripLineEnding]
  cases hn : stripLast '\n' piece with
  | none => rfl
  | some line =>
      rw [← trimEnd_of_stripLast hfeed hn]
      cases hr : stripLast '\r' line with
      | none => simp [hr]
      | some line' => simpa [hr] using trimEnd_of_stripLast hreturn hr

/-- Trimming does away with the line ending. -/
theorem trim_stripLineEnding (piece : List Char) : trim (stripLineEnding piece) = trim piece := by
  rw [trim, trimEnd_stripLineEnding, trim]

/-- Only the empty text has no pieces. -/
theorem splitInclusive_eq_nil_iff {s : List Char} : splitInclusive s = [] ↔ s = [] := by
  cases s with
  | nil => simp [splitInclusive]
  | cons c s =>
      simp only [splitInclusive]
      split
      · simp
      · cases splitInclusive s <;> simp

/-- The pieces of a text make up the text. -/
theorem flatten_splitInclusive (s : List Char) : (splitInclusive s).flatten = s := by
  induction s with
  | nil => rfl
  | cons c s ih =>
      rw [splitInclusive]
      split
      · simp [ih]
      · cases h : splitInclusive s with
        | nil =>
            rw [splitInclusive_eq_nil_iff] at h
            simp [h]
        | cons piece pieces =>
            rw [h] at ih
            simpa using ih

/-- The characters of a line are characters of the text. -/
theorem mem_of_mem_lines {s line : List Char} (hl : line ∈ lines s) {c : Char} (hc : c ∈ line) :
    c ∈ s := by
  obtain ⟨piece, hp, rfl⟩ := List.mem_map.mp hl
  have hstrip : ∀ {d : Char} {t u : List Char}, stripLast d t = some u → c ∈ u → c ∈ t := by
    intro d t u h hu
    rw [stripLast] at h
    split_ifs at h
    cases h
    exact List.dropLast_subset _ hu
  have hpiece : c ∈ piece := by
    rw [stripLineEnding] at hc
    cases hn : stripLast '\n' piece with
    | none => simpa [hn] using hc
    | some line =>
        rw [hn] at hc
        cases hr : stripLast '\r' line with
        | none => exact hstrip hn (by simpa [hr] using hc)
        | some line' => exact hstrip hn (hstrip hr (by simpa [hr] using hc))
  rw [← flatten_splitInclusive s]
  exact List.mem_flatten.mpr ⟨piece, hp, hpiece⟩

/-- The trimmed lines of a text. -/
theorem map_trim_lines (s : List Char) :
    (lines s).map trim = (splitInclusive s).map trim := by
  rw [lines, List.map_map]
  apply List.map_congr_left
  intro piece _
  exact trim_stripLineEnding piece

/-- What follows a line feed changes no piece before it, up to the white space at its end. -/
theorem trimEnd_pieces_stable (s t : List Char) :
    (splitInclusive s).map trimEnd <+: (splitInclusive (s ++ '\n' :: t)).map trimEnd := by
  induction s with
  | nil => exact List.nil_prefix
  | cons c s ih =>
      rw [List.cons_append, splitInclusive, splitInclusive]
      split
      · exact List.prefix_cons_inj _ |>.mpr ih
      · cases hs : splitInclusive s with
        | nil =>
            obtain rfl := splitInclusive_eq_nil_iff.mp hs
            have hnl : trimEnd [c, '\n'] = trimEnd [c] :=
              List.rdropWhile_concat_pos _ [c] '\n' (by decide)
            simp [splitInclusive, hnl]
        | cons piece pieces =>
            rw [hs] at ih
            cases hst : splitInclusive (s ++ '\n' :: t) with
            | nil => simp [hst] at ih
            | cons piece' pieces' =>
                rw [hst, List.map_cons, List.map_cons, List.cons_prefix_cons] at ih
                rw [List.map_cons, List.map_cons, List.cons_prefix_cons, trimEnd_cons, trimEnd_cons,
                  ih.1]
                exact ⟨rfl, ih.2⟩

/-- **What follows a line feed does not change the lines before it**, trimmed. -/
theorem trim_lines_stable (s t : List Char) :
    (lines s).map trim <+: (lines (s ++ '\n' :: t)).map trim := by
  have h := (trimEnd_pieces_stable s t).map (List.dropWhile isWhitespace)
  rw [List.map_map, List.map_map] at h
  rw [map_trim_lines, map_trim_lines]
  exact h

/-- The piece a character is in has as many pieces before it as there are line feeds before the
character. The other pieces do not depend on it. -/
theorem splitInclusive_around (pre post : List Char) :
    ∃ before after x y, before.length = pre.count '\n' ∧
      ∀ c, c ≠ '\n' → splitInclusive (pre ++ c :: post) = before ++ (x ++ c :: y) :: after := by
  induction pre with
  | nil =>
      cases hpost : splitInclusive post with
      | nil =>
          refine ⟨[], [], [], [], rfl, fun c hc => ?_⟩
          rw [List.nil_append, splitInclusive, if_neg hc, hpost]
          rfl
      | cons piece pieces =>
          refine ⟨[], pieces, [], piece, rfl, fun c hc => ?_⟩
          rw [List.nil_append, splitInclusive, if_neg hc, hpost]
          rfl
  | cons d pre ih =>
      obtain ⟨before, after, x, y, hlen, hsplit⟩ := ih
      by_cases hd : d = '\n'
      · refine ⟨[d] :: before, after, x, y, ?_, fun c hc => ?_⟩
        · rw [List.length_cons, hlen, hd, List.count_cons_self]
        · rw [List.cons_append, splitInclusive, if_pos hd, hsplit c hc]
          rfl
      · have hcount : (d :: pre).count '\n' = pre.count '\n' := List.count_cons_of_ne hd
        cases before with
        | nil =>
            refine ⟨[], after, d :: x, y, by rw [hcount, ← hlen], fun c hc => ?_⟩
            rw [List.cons_append, splitInclusive, if_neg hd, hsplit c hc]
            rfl
        | cons piece before =>
            refine ⟨(d :: piece) :: before, after, x, y, by rw [hcount, ← hlen]; rfl,
              fun c hc => ?_⟩
            rw [List.cons_append, splitInclusive, if_neg hd, hsplit c hc]
            rfl

/-- **Changing a character changes one line**: the one with as many lines before it as there are
line feeds before the character. -/
theorem lines_around (pre post : List Char) :
    ∃ before after x y, before.length = pre.count '\n' ∧
      ∀ c, isWhitespace c = false → ∃ raw, lines (pre ++ c :: post) = before ++ raw :: after ∧
        trim raw = x ++ c :: y := by
  obtain ⟨before, after, x, y, hlen, hsplit⟩ := splitInclusive_around pre post
  refine ⟨before.map stripLineEnding, after.map stripLineEnding, x.dropWhile isWhitespace,
    trimEnd y, by rw [List.length_map, hlen], fun c hc => ?_⟩
  have hfeed : c ≠ '\n' := by
    rintro rfl
    exact absurd hc (by decide)
  refine ⟨stripLineEnding (x ++ c :: y), ?_, ?_⟩
  · rw [lines, hsplit c hfeed, List.map_append, List.map_cons]
  · rw [trim_stripLineEnding, trim_of_not_isWhitespace hc]

/-- The first pieces of a text, put together, have these same pieces. -/
theorem splitInclusive_flatten_take (s : List Char) (k : ℕ) :
    splitInclusive ((splitInclusive s).take k).flatten = (splitInclusive s).take k := by
  induction s generalizing k with
  | nil => simp [splitInclusive]
  | cons c s ih =>
      cases k with
      | zero => rfl
      | succ k =>
          rw [splitInclusive]
          split
          · rename_i hc
            rw [List.take_succ_cons, List.flatten_cons, List.singleton_append, splitInclusive,
              if_pos hc, ih]
          · rename_i hc
            cases hs : splitInclusive s with
            | nil => simp [splitInclusive, hc]
            | cons piece pieces =>
                have hk := ih (k + 1)
                rw [hs, List.take_succ_cons, List.flatten_cons] at hk
                dsimp only
                rw [List.take_succ_cons, List.flatten_cons, List.cons_append, splitInclusive,
                  if_neg hc, hk]

/-- The first lines of a text are the lines of a text. -/
theorem exists_lines_eq_take (s : List Char) (k : ℕ) : ∃ t, lines t = (lines s).take k := by
  refine ⟨((splitInclusive s).take k).flatten, ?_⟩
  rw [lines, splitInclusive_flatten_take, List.map_take, lines]

/-! ### UTF-8 -/

/-- The UTF-8 bytes of a text. -/
def utf8 (s : List Char) : List UInt8 := s.flatMap String.utf8EncodeChar

@[simp] theorem utf8_nil : utf8 [] = [] := rfl

/-- The bytes of a text, character after character. -/
@[simp] theorem utf8_cons (c : Char) (s : List Char) :
    utf8 (c :: s) = String.utf8EncodeChar c ++ utf8 s := rfl

/-- **The first byte of a character** is the character itself, or marks it as no ASCII
character. -/
theorem utf8_cases (c : Char) :
    (c.toNat < 0x80 ∧ String.utf8EncodeChar c = [UInt8.ofNat c.toNat]) ∨
      (0x80 ≤ c.toNat ∧ ∃ b bs, 0x80 ≤ b.toNat ∧ String.utf8EncodeChar c = b :: bs) := by
  have hv : c.val.toNat = c.toNat := rfl
  rw [String.utf8EncodeChar, hv]
  split
  · exact .inl ⟨by omega, rfl⟩
  · refine .inr ⟨by omega, ?_⟩
    split
    · refine ⟨_, _, ?_, rfl⟩
      rw [UInt8.toNat_ofNat']
      omega
    · split
      · refine ⟨_, _, ?_, rfl⟩
        rw [UInt8.toNat_ofNat']
        omega
      · refine ⟨_, _, ?_, rfl⟩
        rw [UInt8.toNat_ofNat']
        omega

end Text
