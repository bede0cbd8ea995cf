import Stcbsl.Stc89
import Stcbsl.Text

/-!
# The Intel HEX Reader

What `ihex.rs` computes: the image an Intel HEX text describes, or the error of the first
line that is no record the reader can take.

Every operation that may panic in the source (an index, a slice, an addition that
overflows, an `unwrap`) may panic here: `Stop.panic` is the outcome.

## The shape of the reader

The loop body of `parse` is long, and is taken apart here: `readRecord` reads a record off its
line, with `checkRecord` for what is checked on its bytes, and `applyRecord` carries it out on
the variables of the loop (`ParseState`). `parseLine` puts them together again. A line that is
blank is skipped, and an end-of-file record leaves the loop; behind the loop a text without data
is refused.

The memory of the loop is a list of cells that may be empty, as it is in the source. Empty cells
become the bytes of gaps at the end, and are counted.

## Main definitions

* `parse` — the reader.
* `parseLines`, `parseLine` — its loop, and the body of the loop.
* `readRecord`, `applyRecord` — the two halves of the body.
* `Image`, `HexError`, `Why` — what it answers, and what it complains of.
-/

namespace Stcbsl

namespace IntelHex

open Text

/-! ### Images and errors -/

/-- A parsed image: contiguous bytes starting at address 0. -/
structure Image where
  bytes : Bytes
  lowestAddr : UInt32
  gapBytes : ℕ
  deriving DecidableEq, Repr

/-- What a `BadRecord` complains of, with the values its text shows. -/
inductive Why
  | noStartCode (s : List Char)
  | truncated
  | nonHex (c : UInt8)
  | countDisagrees (count length : ℕ)
  | badType02Length
  | badType04Length
  | unsupportedType (rtype : UInt8)
  deriving DecidableEq, Repr

/-- The text of `why`; `debugStr` and `debugChar` are the `{:?}` format of a string and of a
character. -/
def Why.text (debugStr : List Char → String) (debugChar : UInt8 → String) : Why → String
  | noStartCode s => "no ':' start code: " ++ debugStr s
  | truncated => "truncated record"
  | nonHex c => "non-hex character " ++ debugChar c
  | countDisagrees count length =>
      "byte count " ++ toString count ++ " disagrees with record length " ++ toString length
  | badType02Length => "bad type-02 length"
  | badType04Length => "bad type-04 length"
  | unsupportedType rtype => "unsupported record type 0x" ++ hex02 rtype

/-- `HexError`. -/
inductive HexError
  | empty
  | noData
  | badRecord (line : ℕ) (why : Why)
  | badChecksum (line : ℕ) (computed got : UInt8)
  | addressTooHigh (line : ℕ) (addr : UInt32)
  deriving DecidableEq, Repr

/-- The line an error reports. -/
def HexError.line : HexError → Option ℕ
  | empty => none
  | noData => none
  | badRecord line _ => some line
  | badChecksum line _ _ => some line
  | addressTooHigh line _ => some line

/-- How a computation ends early. -/
inductive Stop (ε : Type)
  | error (e : ε)
  | panic
  deriving DecidableEq, Repr

/-! ### Operations that may panic -/

/-- An index or an `unwrap`. -/
def orPanic {α ε : Type} : Option α → Except (Stop ε) α
  | none => .error .panic
  | some a => .ok a

/-- `a + b` on `u32`. -/
def u32Add {ε : Type} (a b : UInt32) : Except (Stop ε) UInt32 :=
  if a.toNat + b.toNat < 2 ^ 32 then .ok (a + b) else .error .panic

/-- `a + b` on `usize`, where that is narrowest: 32 bits. -/
def usizeAdd {ε : Type} (a b : ℕ) : Except (Stop ε) ℕ :=
  if a + b < 2 ^ 32 then .ok (a + b) else .error .panic

/-- `map_err`. -/
def mapErr {α ε ε' : Type} (f : ε → ε') : Except (Stop ε) α → Except (Stop ε') α
  | .ok a => .ok a
  | .error (.error e) => .error (.error (f e))
  | .error .panic => .error .panic

/-! ### Hexadecimal digits -/

/-- `nibble`. -/
def nibble (c : UInt8) : Except (Stop Why) UInt8 :=
  if 0x30 ≤ c ∧ c ≤ 0x39 then .ok (c - 0x30)
  else if 0x61 ≤ c ∧ c ≤ 0x66 then .ok (c - 0x61 + 10)
  else if 0x41 ≤ c ∧ c ≤ 0x46 then .ok (c - 0x41 + 10)
  else .error (.error (.nonHex c))

/-- The loop of `decode_hex`, on the bytes of the text. -/
def decodePairs (b : Bytes) : Except (Stop Why) Bytes :=
  (chunks 2 b).mapM fun pair => do
    let hi ← nibble (← orPanic pair[0]?)
    let lo ← nibble (← orPanic pair[1]?)
    return hi <<< 4 ||| lo

/-- `decode_hex`. -/
def decodeHex (s : List Char) : Except (Stop Why) Bytes := decodePairs (utf8 s)

/-! ### Records -/

/-- The fields of a record: as many data bytes as its count says. -/
structure Record where
  count : UInt8
  offset : UInt16
  rtype : UInt8
  data : Bytes
  length_data : data.length = count.toNat

/-- A slice that exists is as long as it is asked to be. -/
theorem length_of_slice {α : Type} {l d : List α} {a n : ℕ} (h : slice l a (a + n) = some d) :
    d.length = n := by
  rw [slice] at h
  split_ifs at h with hle
  cases h
  rw [List.extract_eq_take_drop, List.length_take, List.length_drop]
  omega

/-- The part of the loop body of `parse` that checks the bytes of a record and takes them
apart. -/
def checkRecord (line : ℕ) (bytes : Bytes) : Except (Stop HexError) Record := do
  -- a byte: the sums with it below cannot overflow
  let count ← orPanic bytes[0]?
  if bytes.length ≠ count.toNat + 5 then
    .error (.error (.badRecord line (.countDisagrees count.toNat bytes.length)))
  else
    let sum := bytes.foldl (fun a b => a + b) 0
    if sum ≠ 0 then do
      let got ← orPanic bytes.getLast?
      let computed := got - sum
      .error (.error (.badChecksum line computed got))
    else do
      let offset := u16FromBeBytes (← orPanic bytes[1]?) (← orPanic bytes[2]?)
      let rtype ← orPanic bytes[3]?
      match h : slice bytes 4 (4 + count.toNat) with
      | none => .error .panic
      | some data => .ok { count, offset, rtype, data, length_data := length_of_slice h }

/-- The part of the loop body of `parse` that reads a record off its line. -/
def readRecord (line : ℕ) (s : List Char) : Except (Stop HexError) Record :=
  match s with
  | ':' :: body =>
      if (utf8 body).length < 10 ∨ (utf8 body).length % 2 ≠ 0 then
        .error (.error (.badRecord line .truncated))
      else do
        let bytes ← mapErr (.badRecord line) (decodeHex body)
        checkRecord line bytes
  | _ => .error (.error (.badRecord line (.noStartCode s)))

/-! ### The loop -/

/-- The variables of the loop of `parse`. -/
structure ParseState where
  mem : List (Option UInt8)
  base : UInt32
  lowest : UInt32
  sawData : Bool
  deriving DecidableEq, Repr

/-- Their values in front of it. -/
def ParseState.start : ParseState :=
  { mem := [], base := 0, lowest := 0xFFFFFFFF, sawData := false }

/-- `for (i, b) in data.iter().enumerate() { mem[addr + i] = Some(*b) }`, from `i` on. -/
def storeData (mem : List (Option UInt8)) (addr : ℕ) :
    ℕ → Bytes → Except (Stop HexError) (List (Option UInt8))
  | _, [] => .ok mem
  | i, b :: data =>
      if addr + i < mem.length then storeData (mem.set (addr + i) (some b)) addr (i + 1) data
      else .error .panic

/-- The part of the loop body of `parse` that carries a record out; `none` leaves the
loop. -/
def applyRecord (line : ℕ) (r : Record) (st : ParseState) :
    Except (Stop HexError) (Option ParseState) :=
  if r.rtype = 0x00 then do
    let addr ← u32Add st.base r.offset.toUInt32
    let stop ← usizeAdd addr.toNat r.count.toNat
    if stop > 0x10000 then .error (.error (.addressTooHigh line addr))
    else do
      let mem := if st.mem.length < stop then resize st.mem stop none else st.mem
      let mem ← storeData mem addr.toNat 0 r.data
      return some { mem, base := st.base, lowest := min st.lowest addr, sawData := true }
  else if r.rtype = 0x01 then .ok none
  else if r.rtype = 0x02 then
    -- extended segment address: a paragraph number
    if r.count ≠ 2 then .error (.error (.badRecord line .badType02Length))
    else do
      let paragraph := u16FromBeBytes (← orPanic r.data[0]?) (← orPanic r.data[1]?)
      return some { st with base := paragraph.toUInt32 <<< 4 }
  else if r.rtype = 0x04 then
    -- extended linear address: the upper sixteen bits
    if r.count ≠ 2 then .error (.error (.badRecord line .badType04Length))
    else do
      let upper := (u16FromBeBytes (← orPanic r.data[0]?) (← orPanic r.data[1]?)).toUInt32
      if upper ≠ 0 then .error (.error (.addressTooHigh line (upper <<< 16)))
      else return some { st with base := 0 }
  else if r.rtype = 0x03 ∨ r.rtype = 0x05 then .ok (some st)
  else .error (.error (.badRecord line (.unsupportedType r.rtype)))

/-- The body of the loop of `parse`. -/
def parseLine (line : ℕ) (raw : List Char) (st : ParseState) :
    Except (Stop HexError) (Option ParseState) :=
  let s := trim raw
  if s.isEmpty then .ok (some st)
  else do
    let r ← readRecord line s
    applyRecord line r st

/-- The loop of `parse`, from the line at position `idx` on. -/
def parseLines (idx : ℕ) (ls : List (List Char)) (st : ParseState) :
    Except (Stop HexError) ParseState :=
  match ls with
  | [] => .ok st
  | raw :: ls => do
      match ← parseLine (idx + 1) raw st with
      | none => .ok st
      | some st => parseLines (idx + 1) ls st

/-- `parse`: the image an Intel HEX text describes. -/
def parse (text : List Char) : Except (Stop HexError) Image :=
  if (trim text).isEmpty then .error (.error .empty)
  else do
    let st ← parseLines 0 (lines text) .start
    if !st.sawData || st.mem.isEmpty then .error (.error .noData)
    else
      let gapBytes := (st.mem.filter Option.isNone).length
      .ok { bytes := st.mem.map fun b => b.getD 0x00, lowestAddr := st.lowest, gapBytes }

end IntelHex

end Stcbsl
