import Mathlib.Algebra.Ring.Nat
import Mathlib.Data.List.Basic
import Mathlib.Tactic.Common
import Mathlib.Tactic.Push

/-!
# The Frame Codec

The frame format of `frame.rs`:

```
+------+------+-----+-----------+-----+---------------+------+------+
| 0x46 | 0xB9 | DIR | LEN (BE16)| CMD |    PAYLOAD    | CKSM | 0x16 |
+------+------+-----+-----------+-----+---------------+------+------+
```

`LEN` is the frame length less two, `CKSM` the eight-bit sum from `DIR` to the last
payload byte. `encode` writes a frame, `decode` reads one from exactly its own bytes and
rejects everything else with the first of six checks that fails.

## Main results

* `encode_eq` — the bytes of a frame, spelled out.
* `decode_eq_ok_iff` — `decode b = ok f` **iff** `b = encode f`: the two are exact
  inverses, for payloads of every length.
* `codec_exact` — this, with the injectivity of `encode`, and that `decode` never panics.
* `decode_error_of_header` — bytes whose preamble and `LEN` field are right can only be
  rejected for their terminator, checksum or direction.
* `len_states_length_iff` — how far `LEN` is the true length.
-/

namespace Stcbsl

/-- A byte string. -/
abbrev Bytes := List UInt8

/-! ### Machine words -/

/-- `u16::from_be_bytes`. -/
def u16FromBeBytes (hi lo : UInt8) : UInt16 :=
  UInt16.ofNat (hi.toNat * 256 + lo.toNat)

/-- The number in two bytes, the higher one first. -/
@[simp] theorem toNat_u16FromBeBytes (hi lo : UInt8) :
    (u16FromBeBytes hi lo).toNat = hi.toNat * 256 + lo.toNat := by
  have h1 := hi.toNat_lt
  have h2 := lo.toNat_lt
  rw [u16FromBeBytes, UInt16.toNat_ofNat']
  omega

/-- The high byte of a sixteen-bit word, `(len >> 8) as u8`. -/
theorem toNat_hiByte (w : UInt16) : (w >>> 8).toUInt8.toNat = w.toNat / 256 := by
  have := w.toNat_lt
  simp only [UInt16.toNat_toUInt8, UInt16.toNat_shiftRight, Nat.shiftRight_eq_div_pow,
    UInt16.reduceToNat, Nat.reduceMod, Nat.reducePow]
  omega

/-- The low byte of a sixteen-bit word, `(len & 0xFF) as u8`. -/
theorem toNat_loByte (w : UInt16) : (w &&& 0xFF).toUInt8.toNat = w.toNat % 256 := by
  have h : w.toNat &&& 255 = w.toNat % 256 := Nat.and_two_pow_sub_one_eq_mod w.toNat 8
  simp only [UInt16.toNat_toUInt8, UInt16.toNat_and, UInt16.reduceToNat, h]
  omega

/-- Splitting a word into its two bytes and reading them back changes nothing. -/
theorem u16FromBeBytes_split (w : UInt16) :
    u16FromBeBytes (w >>> 8).toUInt8 (w &&& 0xFF).toUInt8 = w := by
  apply UInt16.toNat_inj.mp
  rw [toNat_u16FromBeBytes, toNat_hiByte, toNat_loByte]
  omega

/-- Two bytes are the halves of the word they spell. -/
theorem split_u16FromBeBytes {hi lo : UInt8} {w : UInt16} (h : u16FromBeBytes hi lo = w) :
    (w >>> 8).toUInt8 = hi ∧ (w &&& 0xFF).toUInt8 = lo := by
  have hlo := lo.toNat_lt
  have hw : w.toNat = hi.toNat * 256 + lo.toNat := by rw [← h, toNat_u16FromBeBytes]
  refine ⟨UInt8.toNat_inj.mp ?_, UInt8.toNat_inj.mp ?_⟩
  · rw [toNat_hiByte]; omega
  · rw [toNat_loByte]; omega

/-- Adding bytes up with wrap-around is adding them up modulo 256. -/
theorem foldl_wrapping_add (l : Bytes) :
    l.foldl (fun a b => a + b) 0 = UInt8.ofNat (l.map UInt8.toNat).sum := by
  have hfold : ∀ (l : Bytes) (a : UInt8),
      l.foldl (fun a b => a + b) a = a + UInt8.ofNat (l.map UInt8.toNat).sum := by
    intro l
    induction l with
    | nil => simp
    | cons b l ih =>
        intro a
        rw [List.foldl_cons, ih, List.map_cons, List.sum_cons, UInt8.ofNat_add, UInt8.ofNat_toNat,
          UInt8.add_assoc]
  rw [hfold, UInt8.zero_add]

/-- `{:02x}`: two lower-case hexadecimal digits. -/
def hex02 (b : UInt8) : String :=
  String.ofList [Nat.digitChar (b.toNat / 16), Nat.digitChar (b.toNat % 16)]

/-! ### Operations that may panic -/

/-- `&l[a..b]`: panics (`none`) unless `a ≤ b` and `b ≤ l.len()`. -/
def slice {α : Type} (l : List α) (a b : ℕ) : Option (List α) :=
  if a ≤ b ∧ b ≤ l.length then some (l.extract a b) else none

/-- `a - b` on `usize`: overflows (`none`) unless `b ≤ a`. -/
def usizeSub (a b : ℕ) : Option ℕ := if b ≤ a then some (a - b) else none

/-! ### Constants and the frame type -/

/-- `MAGIC[0]`. -/
def magic0 : UInt8 := 0x46
/-- `MAGIC[1]`. -/
def magic1 : UInt8 := 0xB9
/-- `DIR` byte in frames the host sends. -/
def dirHostToMcu : UInt8 := 0x6A
/-- `DIR` byte in frames the MCU sends. -/
def dirMcuToHost : UInt8 := 0x68
/-- Frame terminator, redundant with `LEN`. -/
def terminator : UInt8 := 0x16
/-- Bytes of overhead around a payload. -/
def frameOverhead : ℕ := 8
/-- Smallest legal `LEN`. -/
def minLenField : UInt16 := 6
/-- Largest `LEN` accepted while hunting. -/
def maxLenField : UInt16 := 1024

/-- Direction of a frame, as carried by the `DIR` byte. -/
inductive Dir
  | hostToMcu
  | mcuToHost
  deriving DecidableEq, Repr

/-- `Dir::byte`. -/
def Dir.byte : Dir → UInt8
  | hostToMcu => dirHostToMcu
  | mcuToHost => dirMcuToHost

/-- `Dir::from_byte`. -/
def Dir.fromByte (b : UInt8) : Option Dir :=
  if b = dirHostToMcu then some .hostToMcu
  else if b = dirMcuToHost then some .mcuToHost
  else none

/-- Each direction has one byte, and no other byte has a direction. -/
theorem Dir.fromByte_eq_some_iff {b : UInt8} {d : Dir} :
    Dir.fromByte b = some d ↔ b = d.byte := by
  cases d <;> simp only [Dir.fromByte, Dir.byte, dirHostToMcu, dirMcuToHost] <;> grind

/-- One decoded message. -/
structure Frame where
  dir : Dir
  cmd : UInt8
  payload : Bytes
  deriving DecidableEq, Repr

/-- The reasons `decode` rejects a byte string. -/
inductive FrameError
  | tooShort (n : ℕ)
  | badMagic (m0 m1 : UInt8)
  | badLength (declared actual : UInt16)
  | badTerminator (b : UInt8)
  | badChecksum (computed got : UInt8)
  | badDir (b : UInt8)
  | implausibleLength (len : UInt16)
  deriving DecidableEq, Repr

/-- `fmt::Display for FrameError`. -/
def FrameError.display : FrameError → String
  | tooShort n => "frame too short (" ++ toString n ++ " bytes)"
  | badMagic m0 m1 => "bad magic " ++ hex02 m0 ++ " " ++ hex02 m1
  | badLength declared actual =>
      "bad length: declared " ++ toString declared ++ ", actual " ++ toString actual
  | badTerminator b => "bad terminator 0x" ++ hex02 b ++ " (want 0x16)"
  | badChecksum computed got =>
      "bad checksum: computed 0x" ++ hex02 computed ++ ", got 0x" ++ hex02 got
  | badDir b => "unknown direction byte 0x" ++ hex02 b
  | implausibleLength l => "implausible LEN " ++ toString l

/-- `CKSM`: the sum of the bytes modulo 256. -/
def checksum (body : Bytes) : UInt8 :=
  body.foldl (fun a b => a + b) 0

namespace Frame

/-- A frame the host will send. -/
def host (cmd : UInt8) (payload : Bytes) : Frame := { dir := .hostToMcu, cmd, payload }

/-- A frame the MCU sent. -/
def mcu (cmd : UInt8) (payload : Bytes) : Frame := { dir := .mcuToHost, cmd, payload }

/-- Total wire length. -/
def wireLen (f : Frame) : ℕ := f.payload.length + frameOverhead

/-- The `LEN` field value, truncated to sixteen bits as the source truncates it. -/
def lenField (f : Frame) : UInt16 := UInt16.ofNat (f.wireLen - 2)

/-- Serialise to the exact bytes that go on the wire. -/
def encode (f : Frame) : Bytes :=
  let len := f.lenField
  let out := [magic0, magic1] ++ [f.dir.byte] ++ [(len >>> 8).toUInt8]
    ++ [(len &&& 0xFF).toUInt8] ++ [f.cmd] ++ f.payload
  let out := out ++ [checksum (out.drop 2)]
  out ++ [terminator]

/-- Parse one complete frame from exactly its own bytes. -/
def decode (bytes : Bytes) : Except FrameError Frame :=
  if h : bytes.length < frameOverhead then
    .error (.tooShort bytes.length)
  else
    -- every index below is within bounds because of this first check
    have hlen : 8 ≤ bytes.length := Nat.le_of_not_lt h
    if bytes[0] ≠ magic0 ∨ bytes[1] ≠ magic1 then
      .error (.badMagic bytes[0] bytes[1])
    else
      let declared := u16FromBeBytes bytes[3] bytes[4]
      let actual := UInt16.ofNat (bytes.length - 2)
      if declared ≠ actual then
        .error (.badLength declared actual)
      else
        let last := bytes[bytes.length - 1]
        if last ≠ terminator then
          .error (.badTerminator last)
        else
          let n := bytes.length
          let got := bytes[n - 2]
          let computed := checksum (bytes.extract 2 (n - 2))
          if got ≠ computed then
            .error (.badChecksum computed got)
          else
            match Dir.fromByte bytes[2] with
            | none => .error (.badDir bytes[2])
            | some dir => .ok { dir, cmd := bytes[5], payload := bytes.extract 6 (n - 2) }

/-- The reply repeats the request with only `DIR` swapped. -/
def isEchoOf (f req : Frame) : Bool :=
  f.dir == .mcuToHost && req.dir == .hostToMcu && f.cmd == req.cmd && f.payload == req.payload

/-- An echo, field by field. -/
theorem isEchoOf_iff {f req : Frame} :
    f.isEchoOf req = true ↔ f.dir = .mcuToHost ∧ req.dir = .hostToMcu ∧ f.cmd = req.cmd ∧
      f.payload = req.payload := by
  simp [isEchoOf, and_assoc]

/-! ### The bytes of a frame -/

/-- The bytes the checksum covers. -/
def body (f : Frame) : Bytes :=
  f.dir.byte :: (f.lenField >>> 8).toUInt8 :: (f.lenField &&& 0xFF).toUInt8 :: f.cmd :: f.payload

/-- **The wire image of a frame**, byte by byte. -/
theorem encode_eq (f : Frame) :
    f.encode = magic0 :: magic1 :: f.dir.byte :: (f.lenField >>> 8).toUInt8 ::
      (f.lenField &&& 0xFF).toUInt8 :: f.cmd ::
        (f.payload ++ [checksum f.body, terminator]) := by
  simp [encode, body]

/-- An encoded frame is as long as it says. -/
@[simp] theorem length_encode (f : Frame) : f.encode.length = f.wireLen := by
  simp [encode_eq, wireLen, frameOverhead]

/-- The two `LEN` bytes of a frame spell its `LEN` field. -/
theorem u16FromBeBytes_lenField (f : Frame) :
    u16FromBeBytes (f.lenField >>> 8).toUInt8 (f.lenField &&& 0xFF).toUInt8 = f.lenField :=
  u16FromBeBytes_split f.lenField

/-- No frame is shorter than what surrounds its payload. -/
theorem frameOverhead_le_wireLen (f : Frame) : 8 ≤ f.wireLen := by
  simp [wireLen, frameOverhead]

/-- Every string long enough to be a frame splits into the fields of one. -/
theorem exists_fields {b : Bytes} (h : 8 ≤ b.length) :
    ∃ b0 b1 b2 b3 b4 b5 p ck t,
      b = b0 :: b1 :: b2 :: b3 :: b4 :: b5 :: (p ++ [ck, t]) := by
  obtain ⟨init, t, rfl⟩ : ∃ init t, b = init ++ [t] :=
    ⟨_, _, (List.dropLast_append_getLast (List.ne_nil_of_length_pos (by omega))).symm⟩
  obtain ⟨init, ck, rfl⟩ : ∃ i c, init = i ++ [c] :=
    ⟨_, _, (List.dropLast_append_getLast (List.ne_nil_of_length_pos (by
      simp only [List.length_append, List.length_singleton] at h; omega))).symm⟩
  match init, h with
  | b0 :: b1 :: b2 :: b3 :: b4 :: b5 :: p, _ =>
      exact ⟨b0, b1, b2, b3, b4, b5, p, ck, t, by simp⟩

/-- **The checks of `decode`**, in the order in which it makes them. -/
theorem decode_fields (b0 b1 b2 b3 b4 b5 ck t : UInt8) (p : Bytes) :
    decode (b0 :: b1 :: b2 :: b3 :: b4 :: b5 :: (p ++ [ck, t])) =
      if b0 ≠ magic0 ∨ b1 ≠ magic1 then .error (.badMagic b0 b1)
      else if u16FromBeBytes b3 b4 ≠ UInt16.ofNat (p.length + 6) then
        .error (.badLength (u16FromBeBytes b3 b4) (UInt16.ofNat (p.length + 6)))
      else if t ≠ terminator then .error (.badTerminator t)
      else if ck ≠ checksum (b2 :: b3 :: b4 :: b5 :: p) then
        .error (.badChecksum (checksum (b2 :: b3 :: b4 :: b5 :: p)) ck)
      else match Dir.fromByte b2 with
        | none => .error (.badDir b2)
        | some dir => .ok { dir, cmd := b5, payload := p } := by
  have hp : ¬ p.length + 8 < 8 := by omega
  simp [decode, frameOverhead, List.extract, hp]

/-- **`encode` and `decode` are exact inverses**: the accepted strings are the wire images
of frames, and each decodes to its own frame. -/
theorem decode_eq_ok_iff {b : Bytes} {f : Frame} : decode b = .ok f ↔ b = f.encode := by
  constructor
  · intro h
    by_cases hlen : 8 ≤ b.length
    · obtain ⟨b0, b1, b2, b3, b4, b5, p, ck, t, rfl⟩ := exists_fields hlen
      rw [decode_fields] at h
      split_ifs at h with hmagic hlenf hterm hck
      push Not at hmagic hlenf hterm hck
      obtain ⟨rfl, rfl⟩ := hmagic
      subst hterm hck
      cases hd : Dir.fromByte b2 with
      | none => rw [hd] at h; cases h
      | some d =>
          rw [hd] at h
          cases h
          obtain rfl := Dir.fromByte_eq_some_iff.mp hd
          obtain ⟨rfl, rfl⟩ := split_u16FromBeBytes hlenf
          simp [encode_eq, body, lenField, wireLen, frameOverhead]
    · rw [decode, dif_pos (by simp only [frameOverhead]; omega)] at h
      cases h
  · rintro rfl
    have hlen : f.lenField = UInt16.ofNat (f.payload.length + 6) := by
      simp [lenField, wireLen, frameOverhead]
    have hd : Dir.fromByte f.dir.byte = some f.dir := Dir.fromByte_eq_some_iff.mpr rfl
    rw [encode_eq, decode_fields, u16FromBeBytes_split, hd]
    simp [body, hlen]

/-- Decoding undoes encoding. -/
@[simp] theorem decode_encode (f : Frame) : decode f.encode = .ok f :=
  decode_eq_ok_iff.mpr rfl

/-- Distinct frames have distinct wire images. -/
theorem encode_injective {f g : Frame} (h : f.encode = g.encode) : f = g := by
  have := decode_encode f
  rw [h, decode_encode g] at this
  exact (Except.ok.inj this).symm

/-- **What a plausible header leaves to go wrong**: bytes with the right preamble and the
right `LEN` are rejected for their terminator, checksum or direction only. -/
theorem decode_error_of_header {b0 b1 b2 b3 b4 : UInt8} {rest : Bytes} {e : FrameError}
    (hm : b0 = magic0 ∧ b1 = magic1)
    (hlen : (u16FromBeBytes b3 b4).toNat = rest.length + 3)
    (hrest : 3 ≤ rest.length)
    (h : decode (b0 :: b1 :: b2 :: b3 :: b4 :: rest) = .error e) :
    (∃ b, e = .badTerminator b) ∨ (∃ c g, e = .badChecksum c g) ∨ ∃ b, e = .badDir b := by
  obtain ⟨_, _, _, _, _, b5, p, ck, t, heq⟩ :=
    exists_fields (b := b0 :: b1 :: b2 :: b3 :: b4 :: rest) (by simp; omega)
  simp only [List.cons.injEq] at heq
  obtain ⟨rfl, rfl, rfl, rfl, rfl, rfl⟩ := heq
  have hl : u16FromBeBytes b3 b4 = UInt16.ofNat (p.length + 6) := by
    have := (u16FromBeBytes b3 b4).toNat_lt
    apply UInt16.toNat_inj.mp
    rw [UInt16.toNat_ofNat', hlen]
    simp only [List.length_cons, List.length_append, List.length_nil] at hlen ⊢
    omega
  rw [decode_fields, if_neg (by simp [hm]), if_neg (by simp [hl])] at h
  split_ifs at h with hterm hck
  · exact .inl ⟨t, (Except.error.inj h).symm⟩
  · exact .inr (.inl ⟨_, _, (Except.error.inj h).symm⟩)
  · cases hd : Dir.fromByte b2 with
    | none => rw [hd] at h; exact .inr (.inr ⟨b2, (Except.error.inj h).symm⟩)
    | some d => rw [hd] at h; cases h

/-! ### No index of `decode` is out of bounds -/

/-- `decode` with each index, range and subtraction as partial as the source has it: `none`
is a panic. -/
def decodePartial (bytes : Bytes) : Option (Except FrameError Frame) := do
  if bytes.length < frameOverhead then
    return .error (.tooShort bytes.length)
  let b0 ← bytes[0]?
  let b1 ← bytes[1]?
  if b0 ≠ magic0 ∨ b1 ≠ magic1 then
    return .error (.badMagic b0 b1)
  let declared := u16FromBeBytes (← bytes[3]?) (← bytes[4]?)
  let actual := UInt16.ofNat (← usizeSub bytes.length 2)
  if declared ≠ actual then
    return .error (.badLength declared actual)
  let last ← bytes.getLast?
  if last ≠ terminator then
    return .error (.badTerminator last)
  let n := bytes.length
  let got ← bytes[← usizeSub n 2]?
  let computed := checksum (← slice bytes 2 (← usizeSub n 2))
  if got ≠ computed then
    return .error (.badChecksum computed got)
  match Dir.fromByte (← bytes[2]?) with
  | none => return .error (.badDir (← bytes[2]?))
  | some dir =>
      return .ok { dir, cmd := ← bytes[5]?, payload := ← slice bytes 6 (← usizeSub n 2) }

/-- **`decode` never panics.** -/
theorem decodePartial_eq (bytes : Bytes) : decodePartial bytes = some (decode bytes) := by
  by_cases hlen : 8 ≤ bytes.length
  · obtain ⟨b0, b1, b2, b3, b4, b5, p, ck, t, rfl⟩ := exists_fields hlen
    have hp : ¬ p.length + 8 < 8 := by omega
    have hlast : (b5 :: (p ++ [ck, t])).getLast? = some t := by
      rw [show b5 :: (p ++ [ck, t]) = b5 :: p ++ [ck] ++ [t] by simp, List.getLast?_concat]
    rw [decode_fields]
    simp [decodePartial, frameOverhead, hp, hlast, usizeSub, slice, List.extract]
    split_ifs with hmagic hlenf hterm hck
    · rfl
    · cases Dir.fromByte b2 <;> rfl
    all_goals rfl
  · have hshort : bytes.length < frameOverhead := Nat.lt_of_not_le hlen
    rw [decodePartial, if_pos hshort, decode, dif_pos hshort]
    rfl

/-- **The codec is exact.** The strings `decode` accepts are the wire images of the frames
it answers with, for payloads of every length: distinct frames have distinct images, every
accepted string is written back as it was, and no input makes `decode` panic. -/
theorem codec_exact :
    (∀ b f, decode b = .ok f ↔ b = f.encode) ∧
      (∀ f g : Frame, f.encode = g.encode → f = g) ∧
      (∀ b f, decode b = .ok f → f.encode = b) ∧
      ∀ b, decodePartial b = some (decode b) :=
  ⟨fun _ _ => decode_eq_ok_iff, fun _ _ => encode_injective,
    fun _ _ h => (decode_eq_ok_iff.mp h).symm, decodePartial_eq⟩

/-! ### What the `LEN` field says -/

/-- The two `LEN` bytes of a string, read big-endian, say how long the string is: two less, as
natural numbers. -/
def StatesLength (b : Bytes) : Prop :=
  ∃ hi lo, b[3]? = some hi ∧ b[4]? = some lo ∧ hi.toNat * 256 + lo.toNat = b.length - 2

/-- The cast to sixteen bits keeps the length of a wire image up to 65537 bytes. -/
theorem toNat_lenField_eq_iff (f : Frame) :
    f.lenField.toNat = f.wireLen - 2 ↔ f.wireLen ≤ 65537 := by
  rw [lenField, UInt16.toNat_ofNat']
  omega

/-- **A wire image states its length** where that fits the two bytes. -/
theorem statesLength_encode_iff (f : Frame) : StatesLength f.encode ↔ f.wireLen ≤ 65537 := by
  have hhi : f.encode[3]? = some (f.lenField >>> 8).toUInt8 := by simp [encode_eq]
  have hlo : f.encode[4]? = some (f.lenField &&& 0xFF).toUInt8 := by simp [encode_eq]
  have hword := congrArg UInt16.toNat f.u16FromBeBytes_lenField
  rw [toNat_u16FromBeBytes] at hword
  rw [← toNat_lenField_eq_iff, ← hword, StatesLength, length_encode]
  constructor
  · rintro ⟨hi, lo, h3, h4, heq⟩
    obtain rfl := Option.some.inj (hhi.symm.trans h3)
    obtain rfl := Option.some.inj (hlo.symm.trans h4)
    exact heq
  · exact fun heq => ⟨_, _, hhi, hlo, heq⟩

/-- **When `LEN` states the true length.** The `LEN` bytes of a frame's wire image do so exactly
for payloads of at most 65529 bytes, and those of an accepted string exactly if that is at most
65537 bytes long. -/
theorem len_states_length_iff (f g : Frame) (b : Bytes) (h : decode b = .ok g) :
    (StatesLength f.encode ↔ f.payload.length ≤ 65529) ∧ (StatesLength b ↔ b.length ≤ 65537) := by
  obtain rfl := decode_eq_ok_iff.mp h
  refine ⟨?_, by rw [statesLength_encode_iff, length_encode]⟩
  rw [statesLength_encode_iff, wireLen, frameOverhead]
  omega

/-- `len_states_length_iff` for a request of 65529 payload bytes and an accepted link-test ack. -/
theorem len_states_length_largest :
    StatesLength (host 0x00 (List.replicate 65529 0)).encode ∧
      StatesLength [0x46, 0xB9, 0x68, 0x00, 0x06, 0x80, 0xEE, 0x16] := by
  obtain ⟨hlargest, hack⟩ := len_states_length_iff (host 0x00 (List.replicate 65529 0))
    (mcu 0x80 []) [0x46, 0xB9, 0x68, 0x00, 0x06, 0x80, 0xEE, 0x16] (by decide)
  exact ⟨hlargest.mpr (by rw [host, List.length_replicate]), hack.mpr (by decide)⟩

/-- **One byte more, and `LEN` is zero**: a frame of 65530 payload bytes does not state its
length, and its wire image is accepted all the same. -/
theorem len_of_long_frame :
    let f := host 0x00 (List.replicate 65530 0)
    f.lenField = 0 ∧ f.encode.length = 65538 ∧ ¬ StatesLength f.encode ∧
      decode f.encode = .ok f := by
  intro f
  have hlen : f.payload.length = 65530 := List.length_replicate
  have hwire : f.wireLen = 65538 := by rw [wireLen, hlen, frameOverhead]
  refine ⟨?_, by rw [length_encode, hwire], ?_, decode_encode f⟩
  · rw [lenField, hwire]
    rfl
  · rw [statesLength_encode_iff, hwire]
    decide

end Frame

end Stcbsl
