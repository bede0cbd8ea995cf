import Stcbsl.IntelHex

/-!
# The Lines of an Intel HEX Text

What a record line looks like, told without the reader: a colon, then pairs of hexadecimal
digits that spell the count, the offset, the type, as many data bytes as the count says, and
a byte that makes the sum of all of them a multiple of 256.

## Digits and bytes

The reader works on the UTF-8 bytes of a line, and the format is about characters. A character
that is no ASCII one has a first byte that is no digit, so a line with such a character in place
of a digit is refused before its other bytes are looked at (`nibble_cases`). Digits spell bytes
two by two (`Spells`); they spell one byte string only, and where they spell one they are ASCII
and the line is as long as its bytes say.

## Records

`Record.OfBytes` says what a record's bytes are, and `RecordLine` what its line is. Either is
determined by what it describes, in both directions, so that "the record of a line" makes sense
where there is one. Of a line that is none the reader reports the number, with a complaint that
depends on which check fails first.

## Main results

* `decodeHex_cases` — digits are decoded to the bytes they spell, everything else is
  refused.
* `checkRecord_cases` — the checks on bytes pass exactly where these are a record's.
* `readRecord_cases` — the reader takes exactly the record lines, with their fields, and
  refuses every other line by its number; it never panics.
-/

namespace Stcbsl

namespace IntelHex

open Text

/-! ### Hexadecimal digits -/

/-- The value of a hexadecimal digit, of either case. -/
def hexValue (c : Char) : Option ℕ :=
  if '0' ≤ c ∧ c ≤ '9' then some (c.toNat - '0'.toNat)
  else if 'a' ≤ c ∧ c ≤ 'f' then some (c.toNat - 'a'.toNat + 10)
  else if 'A' ≤ c ∧ c ≤ 'F' then some (c.toNat - 'A'.toNat + 10)
  else none

/-- The digits spell the bytes, two digits each. -/
inductive Spells : List Char → Bytes → Prop
  | nil : Spells [] []
  | cons {c d : Char} {hi lo : ℕ} {digits : List Char} {bytes : Bytes}
      (hc : hexValue c = some hi) (hd : hexValue d = some lo) (h : Spells digits bytes) :
      Spells (c :: d :: digits) (UInt8.ofNat (hi * 16 + lo) :: bytes)

/-- Digits spell one byte string only. -/
theorem Spells.unique {digits : List Char} {b b' : Bytes} (h : Spells digits b)
    (h' : Spells digits b') : b = b' := by
  induction h generalizing b' with
  | nil =>
      cases h'
      rfl
  | cons hc hd _ ih =>
      cases h' with
      | cons hc' hd' h' =>
          rw [hc, Option.some.injEq] at hc'
          rw [hd, Option.some.injEq] at hd'
          rw [hc', hd', ih h']

/-- Each of the digits has a value. -/
theorem Spells.exists_hexValue {digits : List Char} {b : Bytes} (h : Spells digits b) {c : Char}
    (hc : c ∈ digits) : ∃ v, hexValue c = some v := by
  induction h with
  | nil => cases hc
  | cons hhi hlo _ ih =>
      rcases List.mem_cons.mp hc with rfl | hc
      · exact ⟨_, hhi⟩
      rcases List.mem_cons.mp hc with rfl | hc
      · exact ⟨_, hlo⟩
      · exact ih hc

/-- Nothing is spelled with a character that is no digit. -/
theorem not_spells {digits : List Char} {c : Char} (hc : c ∈ digits) (hnone : hexValue c = none) :
    ¬ ∃ b, Spells digits b := by
  rintro ⟨b, h⟩
  rcases h.exists_hexValue hc with ⟨v, hv⟩
  rw [hnone] at hv
  cases hv

/-- The value of a digit, by its code. -/
theorem hexValue_eq (c : Char) :
    hexValue c =
      if 0x30 ≤ c.toNat ∧ c.toNat ≤ 0x39 then some (c.toNat - 0x30)
      else if 0x61 ≤ c.toNat ∧ c.toNat ≤ 0x66 then some (c.toNat - 0x61 + 10)
      else if 0x41 ≤ c.toNat ∧ c.toNat ≤ 0x46 then some (c.toNat - 0x41 + 10)
      else none := by
  simp only [hexValue, Char.le_def, UInt32.le_iff_toNat_le]
  rfl

/-- A hexadecimal digit is an ASCII character, and its value is below sixteen. -/
theorem lt_of_hexValue {c : Char} {v : ℕ} (h : hexValue c = some v) : c.toNat < 0x80 ∧ v < 16 := by
  rw [hexValue_eq] at h
  split_ifs at h <;> (cases h; omega)

/-- Two nibbles make a byte. -/
theorem nibbles_eq {hi lo : ℕ} (hhi : hi < 16) (hlo : lo < 16) :
    UInt8.ofNat hi <<< 4 ||| UInt8.ofNat lo = UInt8.ofNat (hi * 16 + lo) := by
  have hall : ∀ hi < 16, ∀ lo < 16,
      UInt8.ofNat hi <<< 4 ||| UInt8.ofNat lo = UInt8.ofNat (hi * 16 + lo) := by decide
  exact hall hi hhi lo hlo

/-- What `nibble` makes of an ASCII character. -/
theorem nibble_of_lt (c : Char) (hc : c.toNat < 0x80) :
    nibble (UInt8.ofNat c.toNat) =
      match hexValue c with
      | some v => .ok (UInt8.ofNat v)
      | none => .error (.error (.nonHex (UInt8.ofNat c.toNat))) := by
  have hbyte : (UInt8.ofNat c.toNat).toNat = c.toNat := by
    rw [UInt8.toNat_ofNat', Nat.mod_eq_of_lt (by omega)]
  simp only [nibble, UInt8.le_iff_toNat_le, hbyte, hexValue_eq, UInt8.reduceToNat]
  split_ifs with hdigit hlower hupper
  · refine congrArg _ (UInt8.toNat_inj.mp ?_)
    simp only [UInt8.toNat_sub, hbyte, UInt8.toNat_ofNat', UInt8.reduceToNat]
    omega
  · refine congrArg _ (UInt8.toNat_inj.mp ?_)
    simp only [UInt8.toNat_sub, UInt8.toNat_add, hbyte, UInt8.toNat_ofNat', UInt8.reduceToNat]
    omega
  · refine congrArg _ (UInt8.toNat_inj.mp ?_)
    simp only [UInt8.toNat_sub, UInt8.toNat_add, hbyte, UInt8.toNat_ofNat', UInt8.reduceToNat]
    omega
  · rfl

/-- A byte of no ASCII character is no digit. -/
theorem nibble_of_le {b : UInt8} (h : 0x80 ≤ b.toNat) :
    nibble b = .error (.error (.nonHex b)) := by
  simp only [nibble, UInt8.le_iff_toNat_le, UInt8.reduceToNat]
  rw [if_neg (by omega), if_neg (by omega), if_neg (by omega)]

/-- **What `nibble` makes of a character**: the value of the digit it is, or a complaint about
its first byte. -/
theorem nibble_cases (c : Char) :
    (∃ v x, hexValue c = some v ∧ String.utf8EncodeChar c = [x] ∧
      nibble x = .ok (UInt8.ofNat v)) ∨
      (hexValue c = none ∧ ∃ x xs, String.utf8EncodeChar c = x :: xs ∧
        nibble x = .error (.error (.nonHex x))) := by
  obtain ⟨hc, henc⟩ | ⟨hc, b, bs, hb, henc⟩ := utf8_cases c
  · have hnibble := nibble_of_lt c hc
    cases hv : hexValue c with
    | none => exact .inr ⟨rfl, _, _, henc, by rw [hnibble, hv]⟩
    | some v => exact .inl ⟨v, _, rfl, henc, by rw [hnibble, hv]⟩
  · have hnone : hexValue c = none := by
      rw [hexValue_eq, if_neg (by omega), if_neg (by omega), if_neg (by omega)]
    exact .inr ⟨hnone, b, bs, henc, nibble_of_le hb⟩

/-! ### Decoding digits -/

/-- Two elements at the front are the first pair. -/
theorem chunks_two_cons {α : Type} (x y : α) (l : List α) :
    chunks 2 (x :: y :: l) = [x, y] :: chunks 2 l := by
  have hn : ((x :: y :: l).length + 2 - 1) / 2 = (l.length + 2 - 1) / 2 + 1 := by
    simp only [List.length_cons]
    omega
  rw [chunks, chunks, hn, List.range_succ_eq_map, List.map_cons, List.map_map]
  congr 1
  apply List.map_congr_left
  intro i _
  simp [Nat.succ_mul]

/-- Pairs are decoded from the front. -/
theorem decodePairs_cons (x y : UInt8) (l : Bytes) :
    decodePairs (x :: y :: l) = do
      let hi ← nibble x
      let lo ← nibble y
      let bytes ← decodePairs l
      return (hi <<< 4 ||| lo) :: bytes := by
  rw [decodePairs, chunks_two_cons, List.mapM_cons]
  simp only [List.getElem?_cons_zero, List.getElem?_cons_succ, orPanic, pure_bind, bind_assoc]
  rfl

/-- Bytes are refused for the first half of a pair. -/
theorem decodePairs_of_first {x : UInt8} {l : Bytes} {why : Why}
    (heven : (x :: l).length % 2 = 0) (hx : nibble x = .error (.error why)) :
    decodePairs (x :: l) = .error (.error why) := by
  match l with
  | [] => simp at heven
  | y :: l =>
      rw [decodePairs_cons, hx]
      rfl

/-- Bytes are refused for the second half of a pair. -/
theorem decodePairs_of_second {x y v : UInt8} {l : Bytes} {why : Why} (hx : nibble x = .ok v)
    (hy : nibble y = .error (.error why)) :
    decodePairs (x :: y :: l) = .error (.error why) := by
  rw [decodePairs_cons, hx, hy]
  rfl

/-- **Digits are decoded to the bytes they spell**, and everything else is refused. -/
theorem decodeHex_cases (s : List Char) (heven : (utf8 s).length % 2 = 0) :
    (∃ bytes, decodeHex s = .ok bytes ∧ Spells s bytes) ∨
      ((∃ why, decodeHex s = .error (.error why)) ∧ ¬ ∃ bytes, Spells s bytes) := by
  rw [decodeHex]
  induction hn : s.length using Nat.strongRecOn generalizing s with
  | ind n ih =>
      match s with
      | [] => exact .inl ⟨[], rfl, .nil⟩
      | c :: s =>
          obtain ⟨hi, x, hc, henc, hx⟩ | ⟨hc, x, xs, henc, hx⟩ := nibble_cases c
          · rw [utf8_cons, henc] at heven ⊢
            match s with
            | [] => simp at heven
            | d :: s =>
                obtain ⟨lo, y, hd, henc', hy⟩ | ⟨hd, y, ys, henc', hy⟩ := nibble_cases d
                · rw [utf8_cons, henc'] at heven ⊢
                  have heven' : (utf8 s).length % 2 = 0 := by
                    simp only [List.length_append, List.length_singleton] at heven
                    omega
                  have hbyte := nibbles_eq (lt_of_hexValue hc).2 (lt_of_hexValue hd).2
                  show (∃ bytes, decodePairs (x :: y :: utf8 s) = .ok bytes ∧ _) ∨
                    ((∃ why, decodePairs (x :: y :: utf8 s) = .error (.error why)) ∧ _)
                  rw [decodePairs_cons, hx, hy]
                  obtain ⟨bytes, hdec, hs⟩ | ⟨⟨why, hdec⟩, hs⟩ :=
                    ih s.length (by simp at hn; omega) s heven' rfl
                  · refine .inl ⟨_, ?_, .cons hc hd hs⟩
                    rw [hdec, ← hbyte]
                    rfl
                  · refine .inr ⟨⟨why, by rw [hdec]; rfl⟩, ?_⟩
                    rintro ⟨_, h⟩
                    cases h with
                    | cons _ _ h => exact hs ⟨_, h⟩
                · rw [utf8_cons, henc']
                  exact .inr ⟨⟨_, decodePairs_of_second hx hy⟩, not_spells (by simp) hd⟩
          · rw [utf8_cons, henc] at heven ⊢
            exact .inr ⟨⟨_, decodePairs_of_first heven hx⟩, not_spells (by simp) hc⟩

/-! ### Records -/

/-- The bytes of a record: count, offset, type, data, and a byte that makes their sum a
multiple of 256. -/
def Record.OfBytes (r : Record) (bytes : Bytes) : Prop :=
  ∃ hi lo ck, bytes = r.count :: hi :: lo :: r.rtype :: (r.data ++ [ck]) ∧
    u16FromBeBytes hi lo = r.offset ∧ (bytes.map UInt8.toNat).sum % 256 = 0

/-- **A record line**: a colon, and digits that spell the bytes of the record. The digits are
even in number and at least ten, and the bytes are five more than the count. -/
def RecordLine (s : List Char) (r : Record) : Prop :=
  ∃ digits bytes, s = ':' :: digits ∧ Spells digits bytes ∧ r.OfBytes bytes

/-- A record has five bytes besides its data. -/
theorem Record.OfBytes.length_eq {r : Record} {bytes : Bytes} (h : r.OfBytes bytes) :
    bytes.length = r.count.toNat + 5 := by
  obtain ⟨_, _, _, rfl, -, -⟩ := h
  simp [r.length_data]

/-- The bytes determine the record. -/
theorem Record.OfBytes.unique {r r' : Record} {bytes : Bytes} (h : r.OfBytes bytes)
    (h' : r'.OfBytes bytes) : r = r' := by
  obtain ⟨hi, lo, ck, rfl, hoff, -⟩ := h
  obtain ⟨hi', lo', ck', heq, hoff', -⟩ := h'
  obtain ⟨count, offset, rtype, data, hdata⟩ := r
  obtain ⟨count', offset', rtype', data', hdata'⟩ := r'
  simp only [List.cons.injEq] at heq
  obtain ⟨rfl, rfl, rfl, rfl, hdatas⟩ := heq
  obtain ⟨rfl, -⟩ := List.append_inj' hdatas rfl
  simp_all

/-- The line determines the record. -/
theorem RecordLine.unique {s : List Char} {r r' : Record} (h : RecordLine s r)
    (h' : RecordLine s r') : r = r' := by
  obtain ⟨digits, bytes, rfl, hs, hb⟩ := h
  obtain ⟨digits', bytes', heq, hs', hb'⟩ := h'
  cases heq
  exact hb.unique (hs.unique hs' ▸ hb')

/-- The digits of a record are ASCII. -/
theorem Spells.length_utf8 {digits : List Char} {b : Bytes} (h : Spells digits b) :
    (utf8 digits).length = 2 * b.length := by
  have hone : ∀ {c : Char} {v : ℕ}, hexValue c = some v →
      (String.utf8EncodeChar c).length = 1 := by
    intro c v hc
    obtain ⟨_, x, -, henc, -⟩ | ⟨hnone, -⟩ := nibble_cases c
    · rw [henc]
      rfl
    · rw [hc] at hnone
      cases hnone
  induction h with
  | nil => rfl
  | cons hc hd _ ih =>
      rw [utf8_cons, utf8_cons, List.length_append, List.length_append, hone hc, hone hd, ih,
        List.length_cons]
      omega

/-- The first bytes of a record are within bounds. -/
theorem checkRecord_eq (line : ℕ) (count hi lo rtype : UInt8) (rest : Bytes) :
    checkRecord line (count :: hi :: lo :: rtype :: rest) =
      if (count :: hi :: lo :: rtype :: rest).length ≠ count.toNat + 5 then
        .error (.error (.badRecord line (.countDisagrees count.toNat
          (count :: hi :: lo :: rtype :: rest).length)))
      else
        let sum := (count :: hi :: lo :: rtype :: rest).foldl (fun a b => a + b) 0
        if sum ≠ 0 then do
          let got ← orPanic (count :: hi :: lo :: rtype :: rest).getLast?
          .error (.error (.badChecksum line (got - sum) got))
        else
          match h : slice (count :: hi :: lo :: rtype :: rest) 4 (4 + count.toNat) with
          | none => .error .panic
          | some data =>
              .ok { count, offset := u16FromBeBytes hi lo, rtype, data,
                    length_data := length_of_slice h } :=
  rfl

/-- The checksum is right where the sum is a multiple of 256. -/
theorem sum_eq_zero_iff (b : Bytes) :
    b.foldl (fun a b => a + b) 0 = 0 ↔ (b.map UInt8.toNat).sum % 256 = 0 := by
  rw [foldl_wrapping_add, ← UInt8.toNat_inj, UInt8.toNat_ofNat']
  rfl

/-- The checks on as many bytes as the count says: what is left to check is the sum. -/
theorem checkRecord_of_length (line : ℕ) (count hi lo rtype ck : UInt8) (data : Bytes)
    (hdata : data.length = count.toNat) :
    checkRecord line (count :: hi :: lo :: rtype :: (data ++ [ck])) =
      if (count :: hi :: lo :: rtype :: (data ++ [ck])).foldl (fun a b => a + b) 0 ≠ 0 then
        .error (.error (.badChecksum line
          (ck - (count :: hi :: lo :: rtype :: (data ++ [ck])).foldl (fun a b => a + b) 0) ck))
      else .ok { count, offset := u16FromBeBytes hi lo, rtype, data, length_data := hdata } := by
  have hlen : (count :: hi :: lo :: rtype :: (data ++ [ck])).length = count.toNat + 5 := by
    simp [hdata]
  have hlast : (count :: hi :: lo :: rtype :: (data ++ [ck])).getLast? = some ck := by
    have happ : count :: hi :: lo :: rtype :: (data ++ [ck]) =
        (count :: hi :: lo :: rtype :: data) ++ [ck] := rfl
    rw [happ, List.getLast?_concat]
  have hslice : slice (count :: hi :: lo :: rtype :: (data ++ [ck])) 4 (4 + count.toNat) =
      some data := by
    rw [slice, if_pos ⟨Nat.le_add_right _ _, by omega⟩]
    simp [List.extract, hdata]
  rw [checkRecord_eq, if_neg (not_not.mpr hlen), hlast]
  dsimp only
  split
  · rfl
  · split <;> rename_i hs
    · rw [hslice] at hs
      cases hs
    · rw [hslice] at hs
      cases hs
      rfl

/-- **The checks on the bytes of a record** pass exactly where these are a record's. -/
theorem checkRecord_cases (line : ℕ) {bytes : Bytes} (hlen : 5 ≤ bytes.length) :
    (∃ r, checkRecord line bytes = .ok r ∧ r.OfBytes bytes) ∨
      ((∃ e, checkRecord line bytes = .error (.error e) ∧ e.line = some line) ∧
        ¬ ∃ r : Record, r.OfBytes bytes) := by
  obtain ⟨count, hi, lo, rtype, rest, rfl⟩ :
      ∃ count hi lo rtype rest, bytes = count :: hi :: lo :: rtype :: rest := by
    match bytes, hlen with
    | a :: b :: c :: d :: l, _ => exact ⟨a, b, c, d, l, rfl⟩
  by_cases hn : (count :: hi :: lo :: rtype :: rest).length = count.toNat + 5
  · obtain ⟨data, ck, rfl⟩ : ∃ data ck, rest = data ++ [ck] :=
      ⟨_, _, (List.dropLast_append_getLast (List.ne_nil_of_length_pos (by
        simp only [List.length_cons] at hn
        omega))).symm⟩
    have hdata : data.length = count.toNat := by
      simp only [List.length_cons, List.length_append, List.length_nil] at hn
      omega
    rw [checkRecord_of_length line count hi lo rtype ck data hdata]
    by_cases hsum : (count :: hi :: lo :: rtype :: (data ++ [ck])).foldl (fun a b => a + b) 0 = 0
    · rw [if_neg (not_not.mpr hsum)]
      exact .inl ⟨_, rfl, hi, lo, ck, rfl, rfl, (sum_eq_zero_iff _).mp hsum⟩
    · rw [if_pos hsum]
      refine .inr ⟨⟨_, rfl, rfl⟩, ?_⟩
      rintro ⟨r, _, _, _, -, -, hr⟩
      exact hsum ((sum_eq_zero_iff _).mpr hr)
  · rw [checkRecord_eq, if_pos hn]
    refine .inr ⟨⟨_, rfl, rfl⟩, ?_⟩
    rintro ⟨r, h⟩
    have hcount : r.count = count := by
      obtain ⟨_, _, _, heq, -, -⟩ := h
      exact (List.cons.inj heq).1.symm
    exact hn (hcount ▸ h.length_eq)

/-- **The reader takes exactly the record lines**, with their fields, and refuses every other
line by its number. -/
theorem readRecord_cases (line : ℕ) (s : List Char) :
    (∃ r, readRecord line s = .ok r ∧ RecordLine s r) ∨
      ((∃ e, readRecord line s = .error (.error e) ∧ e.line = some line) ∧
        ¬ ∃ r, RecordLine s r) := by
  by_cases hcolon : ∃ body, s = ':' :: body
  · obtain ⟨body, rfl⟩ := hcolon
    rw [readRecord]
    by_cases hlen : (utf8 body).length < 10 ∨ (utf8 body).length % 2 ≠ 0
    · rw [if_pos hlen]
      refine .inr ⟨⟨_, rfl, rfl⟩, ?_⟩
      rintro ⟨r, digits, bytes, heq, hs, hb⟩
      cases heq
      rw [hs.length_utf8, hb.length_eq] at hlen
      omega
    · rw [if_neg hlen]
      obtain ⟨bytes, hdec, hs⟩ | ⟨⟨why, hdec⟩, hs⟩ := decodeHex_cases body (by omega)
      · have hfive : 5 ≤ bytes.length := by
          rw [hs.length_utf8] at hlen
          omega
        rw [hdec]
        show (∃ r, checkRecord line bytes = .ok r ∧ _) ∨
          ((∃ e, checkRecord line bytes = .error (.error e) ∧ _) ∧ _)
        obtain ⟨r, hr, hb⟩ | ⟨he, hb⟩ := checkRecord_cases line hfive
        · exact .inl ⟨r, hr, body, bytes, rfl, hs, hb⟩
        · refine .inr ⟨he, ?_⟩
          rintro ⟨r, digits, bytes', heq, hs', hb'⟩
          cases heq
          exact hb ⟨r, hs.unique hs' ▸ hb'⟩
      · rw [hdec]
        refine .inr ⟨⟨.badRecord line why, rfl, rfl⟩, ?_⟩
        rintro ⟨r, digits, bytes, heq, hs', -⟩
        cases heq
        exact hs ⟨bytes, hs'⟩
  · have hread : readRecord line s = .error (.error (.badRecord line (.noStartCode s))) := by
      rw [readRecord]
      exact fun body hs => hcolon ⟨body, hs⟩
    refine .inr ⟨⟨_, hread, rfl⟩, ?_⟩
    rintro ⟨r, digits, _, rfl, -⟩
    exact hcolon ⟨digits, rfl⟩

end IntelHex

end Stcbsl
