import Stcbsl.Driver
import Stcbsl.Numerals
import Stcbsl.Text
import Stcbsl.Traversal

/-!
# Bytes and Errors as Text

How bytes and errors are shown, and how the hexadecimal notation of the capture logs is read
back. The reader is more lenient than the writer: the bytes may stand in any white space, have
more digits or fewer, and a `+` in front.

## Errors

The texts of the errors are those of the source, with the values that are shown in them. They
are what the program prints on its standard error (`Stcbsl.Command`), and the one about an
indeterminate flash is looked for there again (`Stcbsl.Interruption`).

## Reading hexadecimal bytes

`unhex` goes through the words of a text and stops at the first one it cannot read. What it
reads is a traversal that may fail, so the statements about a whole text are those about one
word (`unhexWord_eq_ok_iff`, `unhexWord_eq_error_iff`), put together by `Stcbsl.Traversal`. The
words that are read as a byte are told without the reader (`WritesByte`): hexadecimal digits of
either case, any number of zeros among them, with or without a `+` in front.

## Main results

* `u8FromHex_eq_some_iff` — a byte is read from exactly the words that write it.
* `unhex_hex` — what is written is read back.
* `unhex_exact` — the texts that are read, with their bytes, and the word that is complained
  of in every other one.
-/

namespace Stcbsl

open Numerals Text Traversal

/-! ### Hexadecimal bytes -/

/-- `hex`: lower-case and separated by spaces. -/
def hex (bytes : Bytes) : String := " ".intercalate (bytes.map hex02)

/-- `str::split_whitespace`. -/
def splitWhitespace (s : List Char) : List (List Char) :=
  (s.splitOnP isWhitespace).filter fun t => !t.isEmpty

/-- `u8::from_str_radix(t, 16)`. -/
def u8FromHex (t : List Char) : Option UInt8 := (readUnsigned 16 256 t).map UInt8.ofNat

/-- One word of `unhex`. -/
def unhexWord (t : List Char) : Except (List Char) UInt8 :=
  match u8FromHex t with
  | some b => .ok b
  | none => .error t

/-- `unhex`; the error is the word it complains of. -/
def unhex (s : List Char) : Except (List Char) Bytes := (splitWhitespace s).mapM unhexWord

/-! ### The texts of errors -/

/-- `fmt::Debug for Dir`. -/
def Dir.debug : Dir → String
  | hostToMcu => "HostToMcu"
  | mcuToHost => "McuToHost"

/-- `fmt::Debug for Frame`. -/
def Frame.debug (f : Frame) : String :=
  let dir :=
    match f.dir with
    | .hostToMcu => "host->mcu"
    | .mcuToHost => "mcu->host"
  "Frame \x7b " ++ dir ++ " cmd=0x" ++ hex02 f.cmd ++ " payload=" ++ hex f.payload ++ " \x7d"

/-- `fmt::Display for SessionError`. -/
def SessionError.display : SessionError → String
  | notAwaiting => "a reply arrived when none was expected"
  | wrongCommand step want got =>
      step ++ ": expected reply command 0x" ++ hex02 want ++ ", got 0x" ++ hex02 got
  | wrongDirection step got => step ++ ": reply carries direction " ++ got.debug
  | notAnEcho step got => step ++ ": reply is not an echo of the request (" ++ got.debug ++ ")"
  | wrongPayload step want got =>
      step ++ ": expected payload [" ++ hex want ++ "], got [" ++ hex got ++ "]"
  | wrongPayloadLen step want got =>
      step ++ ": expected " ++ toString want ++ " payload bytes, got " ++ toString got
  | blockAckMismatch addr want got =>
      "block at 0x" ++ hex04 addr.toNat ++ ": MCU checksummed 0x" ++ hex02 got ++ ", we sent 0x"
        ++ hex02 want ++ " — flash is now in an INDETERMINATE state; power-cycle and reflash"

/-- `fmt::Display for ProtocolError`. -/
def ProtocolError.display : ProtocolError → String
  | notAStatusFrame cmd => "expected the status packet, got command 0x" ++ hex02 cmd
  | shortStatus got want =>
      "status payload is " ++ toString got ++ " bytes, expected " ++ toString want
  | inconsistentFrequency words =>
      "the eight frequency words disagree (" ++ toString words
        ++ ") — the handshake measurement is unreliable"
  | implausibleFrequency hz =>
      "measured frequency " ++ toString hz ++ " Hz is out of range for this part"
  | unreachableBaud baud reload =>
      "transfer baud " ++ toString baud ++ " needs timer reload " ++ toString reload
        ++ ", which is not an 8-bit value"
  | imageTooLarge image capacity =>
      "image is " ++ toString image ++ " bytes; this part has " ++ toString capacity
        ++ " bytes of code flash"
  | emptyImage => "image contains no data"
  | unknownChipSize chipId =>
      "chip id " ++ hex chipId ++ " is not in our (single-capture) table, so the flash size is "
        ++ "unknown — pass an explicit block count"
  | eraseTooLarge blocks =>
      "erase block count " ++ toString blocks ++ " does not fit in one byte"

/-- `fmt::Display for Error`. -/
def Driver.Error.display : Driver.Error → String
  | io e => "I/O: " ++ e.message
  | protocol e => e.display
  | session e => e.display
  | frame e => e.display
  | timeout label ms => label ++ ": no reply within " ++ toString ms ++ " ms"
  | noBootloader waitedMs noiseBytes =>
      "no bootloader after " ++ toString waitedMs ++ " ms (" ++ toString noiseBytes
        ++ " bytes of non-protocol noise seen). The BSL only runs after a COLD power-on and only "
        ++ "listens for a few hundred milliseconds: switch the board off, start this command, "
        ++ "then switch it on. A reset button will not do it."
  | indeterminateFlash inner =>
      inner.display ++ "\n  flash is in an INDETERMINATE state — part of the image was "
        ++ "programmed. There is no read-back on this part, so the only safe move is to "
        ++ "power-cycle and flash again."

/-! ### Reading hexadecimal bytes -/

/-- The words that are read as a byte: its hexadecimal digits, any number of zeros among them,
with or without a `+` in front. -/
def WritesByte (b : UInt8) (t : List Char) : Prop :=
  ∃ ds, (t = ds ∨ t = '+' :: ds) ∧ Spells 16 b.toNat ds

/-- **A byte is read** from exactly the words that write it. -/
theorem u8FromHex_eq_some_iff {t : List Char} {b : UInt8} :
    u8FromHex t = some b ↔ WritesByte b t := by
  have hb := b.toNat_lt
  constructor
  · intro h
    obtain ⟨n, hn, rfl⟩ := Option.map_eq_some_iff.mp h
    obtain ⟨hlt, hspells⟩ := readUnsigned_eq_some_iff.mp hn
    have hvalue : (UInt8.ofNat n).toNat = n := by
      rw [UInt8.toNat_ofNat']
      omega
    rw [WritesByte, hvalue]
    rcases hspells with hspells | ⟨ds, rfl, hspells⟩
    · exact ⟨t, .inl rfl, hspells⟩
    · exact ⟨ds, .inr rfl, hspells⟩
  · rintro ⟨ds, ht, hspells⟩
    have hread : readUnsigned 16 256 t = some b.toNat := by
      refine readUnsigned_eq_some_iff.mpr ⟨by omega, ?_⟩
      rcases ht with rfl | rfl
      · exact .inl hspells
      · exact .inr ⟨ds, rfl, hspells⟩
    rw [u8FromHex, hread]
    exact congrArg some UInt8.ofNat_toNat

/-- **A word of `unhex` is read** where it writes a byte, as that byte. -/
theorem unhexWord_eq_ok_iff {t : List Char} {b : UInt8} :
    unhexWord t = .ok b ↔ WritesByte b t := by
  rw [← u8FromHex_eq_some_iff, unhexWord]
  cases u8FromHex t <;> simp

/-- A word is complained of where it writes no byte. -/
theorem unhexWord_eq_error_iff {t e : List Char} :
    unhexWord t = .error e ↔ e = t ∧ ∀ b, ¬ WritesByte b t := by
  simp only [← u8FromHex_eq_some_iff, unhexWord]
  cases u8FromHex t <;> simp [eq_comm]

/-! ### Writing and reading back -/

/-- The two digits of a byte. -/
theorem toList_hex02 (b : UInt8) :
    (hex02 b).toList = [Nat.digitChar (b.toNat / 16), Nat.digitChar (b.toNat % 16)] := by
  rw [hex02, String.toList_ofList]

/-- Two digits write their byte. -/
theorem writesByte_hex02 (b : UInt8) : WritesByte b (hex02 b).toList := by
  have hb := b.toNat_lt
  refine ⟨_, .inl rfl, ?_⟩
  rw [toList_hex02, Spells, readDigits, if_neg (List.cons_ne_nil _ _), digitsValue,
    toDigit_digitChar (Nat.le_refl 16) (by omega), Option.bind_some, digitsValue,
    toDigit_digitChar (Nat.le_refl 16) (by omega), Option.bind_some, digitsValue]
  exact congrArg some (by omega)

/-- A hexadecimal digit is no white space. -/
theorem isWhitespace_digitChar {n : ℕ} (hn : n < 16) : isWhitespace n.digitChar = false := by
  have hall : ∀ n < 16, isWhitespace n.digitChar = false := by decide
  exact hall n hn

/-- The two digits of a byte are no white space. -/
theorem isWhitespace_hex02 (b : UInt8) : ∀ c ∈ (hex02 b).toList, isWhitespace c = false := by
  have hb := b.toNat_lt
  intro c hc
  rw [toList_hex02] at hc
  rcases List.mem_cons.mp hc with rfl | hc
  · exact isWhitespace_digitChar (by omega)
  · rw [List.mem_singleton.mp hc]
    exact isWhitespace_digitChar (by omega)

/-- The digits of the first byte stand in front, and a space before the next. -/
theorem toList_hex_cons (b : UInt8) (bytes : Bytes) :
    (hex (b :: bytes)).toList = (hex02 b).toList ++
      if bytes = [] then [] else ' ' :: (hex bytes).toList := by
  cases bytes with
  | nil =>
      rw [hex, hex, List.map_cons, List.map_nil, String.intercalate_singleton, if_pos rfl,
        List.append_nil]
  | cons b' bytes =>
      rw [hex, List.map_cons, List.map_cons, String.intercalate_cons_cons,
        if_neg (List.cons_ne_nil _ _)]
      simp [hex, String.toList_append]

/-- **The words of what is written** are the bytes, two digits each. -/
theorem splitWhitespace_hex (bytes : Bytes) :
    splitWhitespace (hex bytes).toList = bytes.map fun b => (hex02 b).toList := by
  induction bytes with
  | nil => rfl
  | cons b bytes ih =>
      have hb := isWhitespace_hex02 b
      have hkeep : ∀ ts : List (List Char), ((hex02 b).toList :: ts).filter
          (fun t => !t.isEmpty) = (hex02 b).toList :: ts.filter fun t => !t.isEmpty := by
        intro ts
        rw [toList_hex02]
        rfl
      rw [toList_hex_cons]
      split_ifs with hnil
      · rw [List.append_nil, splitWhitespace, List.splitOnP_eq_singleton hb, hnil, hkeep]
        rfl
      · rw [splitWhitespace, List.splitOnP_append_cons_of_forall_mem hb ' ' (by decide),
          hkeep, List.map_cons, ← ih]
        rfl

/-- **What is written is read back.** -/
theorem unhex_hex (bytes : Bytes) : unhex (hex bytes).toList = .ok bytes := by
  rw [unhex, splitWhitespace_hex, mapM_eq_ok_iff, List.forall₂_map_left_iff]
  exact List.forall₂_same.mpr fun b _ => unhexWord_eq_ok_iff.mpr (writesByte_hex02 b)

/-- **The texts that `unhex` reads**: every word writes a byte, and these are the bytes. In every
other text it complains of the first word that writes none. What `hex` writes is read back, in
any white space around it and with further white space between the bytes. -/
theorem unhex_exact (s : List Char) :
    (∀ bytes, unhex s = .ok bytes ↔
      List.Forall₂ (fun t b => WritesByte b t) (splitWhitespace s) bytes) ∧
    (∀ t, unhex s = .error t ↔ ∃ pre post bytes, splitWhitespace s = pre ++ t :: post ∧
      List.Forall₂ (fun t b => WritesByte b t) pre bytes ∧ ∀ b, ¬ WritesByte b t) ∧
    ∀ bytes, splitWhitespace s = splitWhitespace (hex bytes).toList → unhex s = .ok bytes := by
  refine ⟨?_, ?_, ?_⟩
  · intro bytes
    simp only [unhex, mapM_eq_ok_iff, unhexWord_eq_ok_iff]
  · intro t
    simp only [unhex, mapM_eq_error_iff, unhexWord_eq_ok_iff, unhexWord_eq_error_iff]
    constructor
    · rintro ⟨pre, a, post, bytes, hs, hpre, rfl, ha⟩
      exact ⟨pre, post, bytes, hs, hpre, ha⟩
    · rintro ⟨pre, post, bytes, hs, hpre, ha⟩
      exact ⟨pre, t, post, bytes, hs, hpre, rfl, ha⟩
  · intro bytes hs
    rw [← unhex_hex bytes, unhex, unhex, hs]

end Stcbsl
