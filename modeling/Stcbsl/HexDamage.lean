import Stcbsl.HexGrammar
import Stcbsl.OneChange

/-!
# Damaged Intel HEX Texts

What the reader makes of a text that was accepted and has been damaged since.

## A changed digit

A digit that has been replaced by one of a different value is always found out, in the line it is
in. Every digit of a record goes into its checksum, the colon in front of it is no digit, and the
lines before are as they were. A change that replaces a digit by one of the same value, in the
other case, is no damage.

## A text cut short

A text that has been cut short need not be found out: the end-of-file record is where the reader
stops, but a text may also end without one. What is left is read as a text of its own. Lines that
are still there are read as before, so the only thing that the reader can miss in them is data,
and it does so where no record that is left reaches above address zero.

## Main results

* `Spells.changedAt` — a different digit spells a different byte, and the others are the same.
* `parse_changed_digit` — a changed digit is reported in its line.
* `parse_cut` — what the reader makes of the first lines of a text.
* `cut_accepted` — a text whose first line is taken for the whole.
-/

namespace Stcbsl

namespace IntelHex

open Text Overwrite OneChange

/-! ### A changed digit -/

/-- A byte tells the two digits it is spelled with. -/
theorem nibbles_inj {hi lo hi' lo' : ℕ} (hhi : hi < 16) (hlo : lo < 16) (hhi' : hi' < 16)
    (hlo' : lo' < 16) (h : UInt8.ofNat (hi * 16 + lo) = UInt8.ofNat (hi' * 16 + lo')) :
    hi = hi' ∧ lo = lo' := by
  rw [← UInt8.toNat_inj, UInt8.toNat_ofNat', UInt8.toNat_ofNat'] at h
  omega

/-- Two pairs of digits, of which one has a different value, spell different bytes. -/
theorem Spells.changedAt_zero {c d c' d' : Char} {y : List Char} {b b' : Bytes}
    (h : Spells (c :: d :: y) b) (h' : Spells (c' :: d' :: y) b')
    (hne : hexValue c ≠ hexValue c' ∨ hexValue d ≠ hexValue d') : ChangedAt 0 b b' := by
  cases h with
  | cons hc hd h =>
      cases h' with
      | cons hc' hd' h' =>
          refine changedAt_cons_iff.mpr (.inl ⟨rfl, fun heq => ?_, h.unique h'⟩)
          obtain ⟨rfl, rfl⟩ := nibbles_inj (lt_of_hexValue hc).2 (lt_of_hexValue hd).2
            (lt_of_hexValue hc').2 (lt_of_hexValue hd').2 heq
          rcases hne with hne | hne
          · exact hne (hc.trans hc'.symm)
          · exact hne (hd.trans hd'.symm)

section Digit

variable {c c' : Char} {v v' : ℕ}

/-- **A different digit spells a different byte**, and the others are the same. The digits are
taken off two at a time. -/
theorem Spells.changedAt (hne : hexValue c ≠ hexValue c') {x y : List Char} {b b' : Bytes}
    (h : Spells (x ++ c :: y) b) (h' : Spells (x ++ c' :: y) b') : ∃ i, ChangedAt i b b' := by
  generalize hs : x ++ c :: y = s at h
  induction h generalizing x b' with
  | nil => simp at hs
  | @cons d e hi lo digits bytes hd he hrest ih =>
      rcases x with _ | ⟨f, _ | ⟨g, x⟩⟩
      · obtain ⟨rfl, rfl⟩ := List.cons.inj hs
        exact ⟨0, (Spells.cons hd he hrest).changedAt_zero h' (.inl hne)⟩
      · simp only [List.cons_append, List.nil_append, List.cons.injEq] at hs
        obtain ⟨rfl, rfl, rfl⟩ := hs
        exact ⟨0, (Spells.cons hd he hrest).changedAt_zero h' (.inr hne)⟩
      · simp only [List.cons_append, List.cons.injEq] at hs
        obtain ⟨rfl, rfl, hs⟩ := hs
        cases h' with
        | cons hd' he' hrest' =>
            rw [hd', Option.some.injEq] at hd
            rw [he', Option.some.injEq] at he
            obtain ⟨i, hi⟩ := ih hrest' hs
            exact ⟨i + 1, changedAt_cons_iff.mpr (.inr ⟨i, rfl, by rw [hd, he], hi⟩)⟩

/-- The bytes of two records never differ in one place: the checksum tells. -/
theorem Record.OfBytes.not_changedAt {r r' : Record} {b b' : Bytes} (h : r.OfBytes b)
    (h' : r'.OfBytes b') (i : ℕ) : ¬ ChangedAt i b b' := by
  intro hchange
  obtain ⟨_, _, _, -, -, hsum⟩ := h
  obtain ⟨_, _, _, -, -, hsum'⟩ := h'
  -- a sum can be cancelled on either side
  have hne : b'.foldl (fun a b => a + b) 0 ≠ b.foldl (fun a b => a + b) 0 :=
    hchange.foldl_ne (fun a _ _ heq => (UInt8.add_right_inj a).mp heq)
      (fun a _ _ heq => (UInt8.add_left_inj a).mp heq) 0
  exact hne (((sum_eq_zero_iff b').mpr hsum').trans ((sum_eq_zero_iff b).mpr hsum).symm)

/-- **A record line with one digit changed is no record line.** -/
theorem RecordLine.not_of_changed (hv : hexValue c = some v) (hne : hexValue c ≠ hexValue c')
    {x y : List Char} {r r' : Record} (h : RecordLine (x ++ c :: y) r) :
    ¬ RecordLine (x ++ c' :: y) r' := by
  rintro ⟨digits', bytes', hline', hspells', hbytes'⟩
  obtain ⟨digits, bytes, hline, hspells, hbytes⟩ := h
  cases x with
  | nil =>
      obtain ⟨rfl, -⟩ := List.cons.inj hline
      have hcolon : hexValue ':' = none := by decide
      rw [hcolon] at hv
      cases hv
  | cons d x =>
      obtain ⟨-, rfl⟩ := List.cons.inj hline
      obtain ⟨-, rfl⟩ := List.cons.inj hline'
      obtain ⟨i, hchange⟩ := hspells.changedAt hne hspells'
      exact hbytes.not_changedAt hbytes' i hchange

/-- A digit is no white space. -/
theorem not_isWhitespace_of_hexValue (hv : hexValue c = some v) : isWhitespace c = false := by
  rw [hexValue_eq] at hv
  rw [isWhitespace]
  split_ifs at hv
  all_goals
    simp
    omega

/-! ### The line of a changed digit -/

/-- The first of some records are allowed where all of them are. -/
theorem AllowedFrom.left {rs new tail : List Record} (h : AllowedFrom rs (new ++ tail)) :
    AllowedFrom rs new := by
  intro i r hr
  obtain ⟨hi, -⟩ := List.getElem?_eq_some_iff.mp hr
  have := h i r (by rw [List.getElem?_append_left hi, hr])
  rwa [List.take_append_of_le_length (Nat.le_of_lt hi)] at this

/-- The records of an accepted text are allowed at their places. -/
theorem allowed_of_parse {text : List Char} {img : Image} (h : parse text = .ok img) :
    ∃ rs, Listed (lines text) rs ∧ AllowedFrom [] rs := by
  obtain ⟨rs, hrs⟩ := (parse_ok_iff text).mp ⟨img, h⟩
  exact ⟨rs, hrs.listed, hrs.allowed⟩

/-- A line that is not blank is a record. -/
theorem Listed.recordLine {raw : List Char} {ls : List (List Char)} {rs : List Record}
    (h : Listed (raw :: ls) rs) (hne : trim raw ≠ []) : ∃ r, RecordLine (trim raw) r := by
  cases h with
  | blank hblank _ => exact absurd hblank hne
  | record hr _ _ => exact ⟨_, hr⟩
  | last hr _ => exact ⟨_, hr⟩

/-- **A changed digit is reported in its line.** The text was accepted, and the digit is in no
line behind an end-of-file record. -/
theorem parse_changed_digit {pre post : List Char} {img : Image}
    (hv : hexValue c = some v) (hv' : hexValue c' = some v') (hne : v ≠ v')
    (hok : parse (pre ++ c :: post) = .ok img)
    (hno : ∀ raw ∈ (lines (pre ++ c :: post)).take (pre.count '\n'), ¬ EndOfFile raw) :
    ∃ e, parse (pre ++ c' :: post) = .error (.error e) ∧
      e.line = some (pre.count '\n' + 1) := by
  obtain ⟨before, after, x, y, hlen, hlines⟩ := lines_around pre post
  obtain ⟨raw, hraw, htrim⟩ := hlines c (not_isWhitespace_of_hexValue hv)
  obtain ⟨raw', hraw', htrim'⟩ := hlines c' (not_isWhitespace_of_hexValue hv')
  obtain ⟨all, hall, hallowed⟩ := allowed_of_parse hok
  rw [hraw] at hall
  rw [hraw, List.take_left' hlen] at hno
  obtain ⟨new, tail, rfl, hnew, heof, htail⟩ := hall.cut hno
  obtain ⟨r, hr⟩ := htail.recordLine (by rw [htrim]; simp)
  rw [htrim] at hr
  refine parse_of_firstBad ⟨raw', new, ?_, by rw [htrim']; simp, ?_, heof, hallowed.left, ?_⟩
  · rw [hraw', ← hlen, List.getElem?_append_right (Nat.le_refl _), Nat.sub_self,
      List.getElem?_cons_zero]
  · rwa [hraw', List.take_left' hlen]
  · rintro ⟨r', hr', -⟩
    rw [htrim'] at hr'
    have hvalue : hexValue c ≠ hexValue c' := by
      rw [hv, hv']
      exact fun heq => hne (Option.some.inj heq)
    exact hr.not_of_changed hv hvalue hr'

end Digit

/-- The type of the end-of-file record, changed to that of a data record. -/
theorem parse_changed_digit_last :
    ∃ e, parse (":03000000010203F7\n:0000000".toList ++ '0' :: "FF\n".toList) =
        .error (.error e) ∧ e.line = some 2 := by
  have hone : hexValue '1' = some 1 := by decide
  have hzero : hexValue '0' = some 0 := by decide
  have hok : parse (":03000000010203F7\n:0000000".toList ++ '1' :: "FF\n".toList) =
      .ok { bytes := [1, 2, 3], lowestAddr := 0, gapBytes := 0 } := by decide +kernel
  exact parse_changed_digit hone hzero (by decide) hok (by decide +kernel)

/-! ### A text cut short -/

/-- A text whose records are all allowed at their places is refused for want of data only. -/
theorem parse_of_allowed {text : List Char} {rs : List Record} (h : Listed (lines text) rs)
    (hallowed : AllowedFrom [] rs) :
    ((∃ img, parse text = .ok img) ↔ ∃ p ∈ placed rs, 0 < p.1 + p.2.length) ∧
      (∀ img, parse text = .ok img → IsImage (placed rs) img) ∧
      ((∀ img, parse text ≠ .ok img) →
        parse text = .error (.error .empty) ∨ parse text = .error (.error .noData)) := by
  refine ⟨?_, fun img hok => (parse_overlay text img hok).2 rs h, fun hno => ?_⟩
  · rw [parse_ok_iff]
    constructor
    · rintro ⟨rs', hrs'⟩
      rw [h.unique hrs'.listed]
      exact hrs'.data
    · exact fun hdata => ⟨rs, h, hallowed, hdata⟩
  · rcases parse_cases text with
      ⟨_, -, -, ⟨-, st, -, hparse⟩ | ⟨-, e, hparse, hline⟩⟩ | ⟨k, _, hbad, -, -⟩
    · exact absurd hparse (hno _)
    · cases e with
      | empty => exact .inl hparse
      | noData => exact .inr hparse
      | _ => cases hline
    · exact absurd hallowed (hbad.not_allowedFrom h)

/-- **What the reader makes of the first lines of a text** it accepts, where the end-of-file
record is not among them: if there is data in them, an image of that data. -/
theorem parse_cut {text : List Char} {img : Image} (h : parse text = .ok img) {k : ℕ}
    (hno : ∀ raw ∈ (lines text).take k, ¬ EndOfFile raw) :
    (∃ cut, lines cut = (lines text).take k) ∧
      ∀ cut, lines cut = (lines text).take k →
        ∃ rs tail, Listed (lines cut) rs ∧ Listed (lines text) (rs ++ tail) ∧
          ((∃ img', parse cut = .ok img') ↔ ∃ p ∈ placed rs, 0 < p.1 + p.2.length) ∧
          (∀ img', parse cut = .ok img' → IsImage (placed rs) img') ∧
          ((∀ img', parse cut ≠ .ok img') →
            parse cut = .error (.error .empty) ∨ parse cut = .error (.error .noData)) := by
  refine ⟨exists_lines_eq_take text k, fun cut hcut => ?_⟩
  obtain ⟨all, hall, hallowed⟩ := allowed_of_parse h
  have hsplit : Listed ((lines text).take k ++ (lines text).drop k) all := by
    rwa [List.take_append_drop]
  obtain ⟨rs, tail, rfl, hrs, -, -⟩ := hsplit.cut hno
  rw [← hcut] at hrs
  exact ⟨rs, tail, hrs, hall, parse_of_allowed hrs hallowed.left⟩

/-- The first line of two data records. -/
theorem parse_cut_first :
    ∃ img, parse ":01000000AA55\n".toList = .ok img ∧ img.bytes = [0xAA] ∧
      ∃ rs tail, Listed (lines ":01000000AA55\n".toList) rs ∧
        Listed (lines ":01000000AA55\n:0100050055A5\n:00000001FF\n".toList) (rs ++ tail) ∧
        IsImage (placed rs) img := by
  have hok : parse ":01000000AA55\n:0100050055A5\n:00000001FF\n".toList =
      .ok { bytes := [0xAA, 0, 0, 0, 0, 0x55], lowestAddr := 0, gapBytes := 4 } := by
    decide +kernel
  have hcut : parse ":01000000AA55\n".toList =
      .ok { bytes := [0xAA], lowestAddr := 0, gapBytes := 0 } := by decide +kernel
  have hlines : lines ":01000000AA55\n".toList =
      (lines ":01000000AA55\n:0100050055A5\n:00000001FF\n".toList).take 1 := by decide +kernel
  have hno : ∀ raw ∈ (lines ":01000000AA55\n:0100050055A5\n:00000001FF\n".toList).take 1,
      ¬ EndOfFile raw := by decide +kernel
  obtain ⟨rs, tail, hrs, hall, -, himage, -⟩ := (parse_cut hok hno).2 _ hlines
  exact ⟨_, hcut, rfl, rs, tail, hrs, hall, himage _ hcut⟩

/-- **A text cut short that is taken for the whole**: the first of two data records, without the
end-of-file record behind them, makes a shorter image. -/
theorem cut_accepted :
    ∃ text cut img img', parse text = .ok img ∧ (∃ raw ∈ lines text, EndOfFile raw) ∧
      lines cut = (lines text).take 1 ∧ (∀ raw ∈ (lines text).take 1, ¬ EndOfFile raw) ∧
      parse cut = .ok img' ∧ img'.bytes.length < img.bytes.length := by
  refine ⟨":01000000AA55\n:0100050055A5\n:00000001FF\n".toList, ":01000000AA55\n".toList,
    { bytes := [0xAA, 0, 0, 0, 0, 0x55], lowestAddr := 0, gapBytes := 4 },
    { bytes := [0xAA], lowestAddr := 0, gapBytes := 0 }, ?_⟩
  decide +kernel

end IntelHex

end Stcbsl
