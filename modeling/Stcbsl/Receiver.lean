import Stcbsl.Frame
import Stcbsl.Scanner

/-!
# The Resynchronising Receiver

The byte-stream decoder of `frame.rs`: `feed` appends what the wire delivered, `nextFrame`
hunts for the preamble and pulls the next frame, and every byte that belongs to no frame is
moved to `discarded`. A plausible header whose bytes fail validation is reported once and
costs a single byte, so the hunt goes on from inside the bad run.

## Loops and decisions

The decision the two nested loops take at the front of the buffer is the scanner `frames`
(`Stcbsl.Scanner`), and `nextFrame` performs one reading of it: `nextFrame_reads` is the
refinement every stream property of the receiver is derived from. Nothing above this module looks
at the loops again, except to count their turns.

For a header that is not plausible five bytes settle the decision at most, and for one that is
the bytes that its `LEN` field declares. Until these have arrived the scanner waits, and what has
been decided is not changed by what comes behind.

## Main results

* `verdict_eq_accept_iff`, `verdict_eq_reject_iff`, `verdict_eq_wait_iff` — the scanner's
  decision, in terms of the bytes at the front of the stream.
* `hunt_reads`, `nextFrame_reads` — the loops of the source perform a reading of `frames`.
* `nextFrame_pending` — every result makes the buffer smaller, so draining ends.
-/

namespace Stcbsl

open Resync

/-! ### The receiver of the source -/

/-- A resynchronising byte-stream decoder: the bytes buffered, and the bytes thrown away
since the last `takeDiscarded`. -/
structure Receiver where
  buf : Bytes
  discarded : Bytes
  deriving DecidableEq, Repr

/-- The outcome of one hunt. -/
inductive Hunt
  | needMore
  | advanced
  | frame (n : ℕ)
  deriving DecidableEq, Repr

/-- `MIN_LEN_FIELD..=MAX_LEN_FIELD` contains `declared`. -/
def lenInRange (declared : UInt16) : Bool :=
  minLenField ≤ declared && declared ≤ maxLenField

namespace Receiver

/-- `Receiver::new`. -/
def new : Receiver := { buf := [], discarded := [] }

/-- Append the bytes of one read. -/
def feed (rx : Receiver) (bytes : Bytes) : Receiver :=
  { rx with buf := rx.buf ++ bytes }

/-- Bytes thrown away since the last call, in order. -/
def takeDiscarded (rx : Receiver) : Bytes × Receiver :=
  (rx.discarded, { rx with discarded := [] })

/-- `Receiver::discarded_len`. -/
def discardedLen (rx : Receiver) : ℕ := rx.discarded.length

/-- Bytes buffered but not yet forming a complete frame. -/
def pending (rx : Receiver) : ℕ := rx.buf.length

/-- The loop of `hunt` over the buffer, with the bytes discarded so far. -/
def huntLoop (discarded : Bytes) : Bytes → Hunt × Receiver
  | [] => (.needMore, { buf := [], discarded })
  | b0 :: rest =>
      if b0 ≠ magic0 then
        huntLoop (discarded ++ [b0]) rest
      else
        match rest with
        | [] => (.needMore, { buf := b0 :: rest, discarded })
        | b1 :: rest1 =>
            if b1 ≠ magic1 then
              -- a lone 0x46: drop just it, the next byte may be the real 0x46
              huntLoop (discarded ++ [b0]) rest
            else
              match rest1 with
              | _ :: hi :: lo :: _ =>
                  let declared := u16FromBeBytes hi lo
                  if !lenInRange declared then
                    (.advanced, { buf := rest, discarded := discarded ++ [b0] })
                  else
                    let n := declared.toNat + 2
                    if (b0 :: rest).length < n then (.needMore, { buf := b0 :: rest, discarded })
                    else (.frame n, { buf := b0 :: rest, discarded })
              -- fewer than five bytes: no `LEN` field yet
              | _ => (.needMore, { buf := b0 :: rest, discarded })

/-- Hunt for the preamble, discarding what cannot start a frame. -/
def hunt (rx : Receiver) : Hunt × Receiver :=
  huntLoop rx.discarded rx.buf

end Receiver

/-! ### The decision at the front of the stream -/

/-- What the receiver decides about the unread bytes. -/
def verdict : Bytes → Verdict FrameError Frame
  | [] => .wait
  | b0 :: rest =>
      if b0 ≠ magic0 then .skip
      else
        match rest with
        | [] => .wait
        | b1 :: rest1 =>
            if b1 ≠ magic1 then .skip
            else
              match rest1 with
              | dir :: hi :: lo :: tail =>
                  if !lenInRange (u16FromBeBytes hi lo) then .skip
                  else
                    let l := b0 :: b1 :: dir :: hi :: lo :: tail
                    let n := (u16FromBeBytes hi lo).toNat + 2
                    if l.length < n then .wait
                    else
                      match Frame.decode (l.take n) with
                      | .ok f => .accept n f
                      | .error e => .reject e
              | _ => .wait

/-- The preamble and a `LEN` field of plausible value `len` stand at the front. -/
def PlausibleHeader (l : Bytes) (len : ℕ) : Prop :=
  ∃ dir hi lo tail, l = magic0 :: magic1 :: dir :: hi :: lo :: tail ∧
    len = (u16FromBeBytes hi lo).toNat ∧ 6 ≤ len ∧ len ≤ 1024

/-- The bytes at the front do not yet decide: nothing, a lone first magic byte, a preamble
without its `LEN` field, or a plausible header whose frame has not fully arrived. -/
def Undecided (l : Bytes) : Prop :=
  l = [] ∨ l = [magic0] ∨ ([magic0, magic1] <+: l ∧ l.length < 5) ∨
    ∃ len, PlausibleHeader l len ∧ l.length < len + 2

/-- **What does not decide is short of one frame** of the greatest length hunted for. -/
theorem Undecided.length_le {l : Bytes} (h : Undecided l) : l.length ≤ 1025 := by
  rcases h with h | h | ⟨-, h⟩ | ⟨len, ⟨_, _, _, _, -, -, -, hle⟩, h⟩
  · rw [h]
    exact Nat.zero_le _
  · rw [h]
    exact Nat.le_of_ble_eq_true rfl
  · omega
  · omega

/-- The receiver hunts for this frame: its `LEN` is at most `MAX_LEN_FIELD`. -/
def Frame.LenPlausible (f : Frame) : Prop := f.wireLen - 2 ≤ 1024

instance (f : Frame) : Decidable f.LenPlausible :=
  inferInstanceAs (Decidable (f.wireLen - 2 ≤ 1024))

/-- A length field is in range from 6 to 1024. -/
theorem lenInRange_iff {w : UInt16} : lenInRange w = true ↔ 6 ≤ w.toNat ∧ w.toNat ≤ 1024 := by
  simp [lenInRange, minLenField, maxLenField, UInt16.le_iff_toNat_le]

/-- The `LEN` field of a plausible frame is its true length less two. -/
theorem Frame.LenPlausible.toNat_lenField {f : Frame} (h : f.LenPlausible) :
    f.lenField.toNat = f.wireLen - 2 := by
  have hle : f.wireLen - 2 ≤ 1024 := h
  rw [Frame.lenField, UInt16.toNat_ofNat']
  omega

/-- A header states one length. -/
theorem PlausibleHeader.unique {l : Bytes} {n m : ℕ} (hn : PlausibleHeader l n)
    (hm : PlausibleHeader l m) : n = m := by
  obtain ⟨_, _, _, _, rfl, rfl, -⟩ := hn
  obtain ⟨_, _, _, _, heq, rfl, -⟩ := hm
  simp only [List.cons.injEq, true_and] at heq
  obtain ⟨-, rfl, rfl, -⟩ := heq
  rfl

/-- Behind a plausible header only completeness and validation are left to check. -/
theorem verdict_of_header {l : Bytes} {len : ℕ} (h : PlausibleHeader l len) :
    verdict l = if l.length < len + 2 then .wait
      else match Frame.decode (l.take (len + 2)) with
        | .ok f => .accept (len + 2) f
        | .error e => .reject e := by
  obtain ⟨dir, hi, lo, tail, rfl, rfl, h6, h1024⟩ := h
  have hr : lenInRange (u16FromBeBytes hi lo) = true := lenInRange_iff.mpr ⟨h6, h1024⟩
  simp [verdict, hr]

/-- Where no plausible header stands, nothing is accepted or reported. -/
theorem verdict_of_no_header {l : Bytes} (h : ∀ len, ¬ PlausibleHeader l len) :
    verdict l = .skip ∨
      (verdict l = .wait ∧
        (l = [] ∨ l = [magic0] ∨ ([magic0, magic1] <+: l ∧ l.length < 5))) := by
  match l with
  | [] => exact .inr ⟨rfl, .inl rfl⟩
  | [b0] =>
      by_cases h0 : b0 = magic0
      · subst h0
        exact .inr ⟨by simp [verdict], .inr (.inl rfl)⟩
      · exact .inl (by simp [verdict, h0])
  | b0 :: b1 :: rest1 =>
      by_cases h0 : b0 = magic0
      · by_cases h1 : b1 = magic1
        · subst h0 h1
          match rest1, h with
          | dir :: hi :: lo :: tail, h =>
              refine .inl ?_
              have hr : lenInRange (u16FromBeBytes hi lo) = false := by
                by_contra hc
                have := lenInRange_iff.mp (by simpa using hc)
                exact h _ ⟨dir, hi, lo, tail, rfl, rfl, this⟩
              simp [verdict, hr]
          | [], _ | [_], _ | [_, _], _ =>
              exact .inr ⟨by simp [verdict], .inr (.inr ⟨⟨_, rfl⟩, by simp⟩)⟩
        · exact .inl (by simp [verdict, h0, h1])
      · exact .inl (by simp [verdict, h0])

/-- **The receiver waits exactly where the bytes do not decide.** -/
theorem verdict_eq_wait_iff {l : Bytes} : verdict l = .wait ↔ Undecided l := by
  by_cases hh : ∃ len, PlausibleHeader l len
  · obtain ⟨len, hlen⟩ := hh
    rw [verdict_of_header hlen]
    constructor
    · intro h
      split_ifs at h with hshort
      · exact .inr (.inr (.inr ⟨len, hlen, hshort⟩))
      · split at h <;> cases h
    · intro h
      have hshort : l.length < len + 2 := by
        obtain ⟨_, hi, lo, tail, rfl, hl, h6, -⟩ := id hlen
        rcases h with h | h | ⟨-, h⟩ | ⟨len', hlen', h⟩
        · cases h
        · simp at h
        · simp at h; omega
        · rwa [hlen.unique hlen']
      rw [if_pos hshort]
  · push Not at hh
    rcases verdict_of_no_header hh with hv | ⟨hv, hu⟩
    · rw [hv]
      refine iff_of_false (by simp) ?_
      rintro (rfl | rfl | ⟨⟨t, rfl⟩, h5⟩ | ⟨len, hlen, -⟩)
      · simp [verdict] at hv
      · simp [verdict] at hv
      · match t, h5, hv with
        | [], _, hv | [_], _, hv | [_, _], _, hv => simp [verdict] at hv
      · exact hh len hlen
    · refine iff_of_true hv ?_
      rcases hu with h | h | h
      · exact .inl h
      · exact .inr (.inl h)
      · exact .inr (.inr (.inl h))

/-- **The receiver accepts exactly the plausible frames**, by taking their wire image off
the stream. -/
theorem verdict_eq_accept_iff {l : Bytes} {n : ℕ} {f : Frame} :
    verdict l = .accept n f ↔ f.LenPlausible ∧ f.encode <+: l ∧ n = f.wireLen := by
  constructor
  · intro h
    by_cases hh : ∃ len, PlausibleHeader l len
    · obtain ⟨len, hlen⟩ := hh
      rw [verdict_of_header hlen] at h
      split_ifs at h with hshort
      split at h
      · next g hdec =>
          cases h
          have henc : l.take (len + 2) = f.encode := Frame.decode_eq_ok_iff.mp hdec
          have hwire : f.wireLen = len + 2 := by
            rw [← Frame.length_encode, ← henc, List.length_take]
            omega
          obtain ⟨_, _, _, _, -, -, -, h1024⟩ := hlen
          exact ⟨by rw [Frame.LenPlausible]; omega, henc ▸ List.take_prefix _ _, hwire.symm⟩
      · cases h
    · push Not at hh
      rcases verdict_of_no_header hh with hv | ⟨hv, -⟩ <;> rw [hv] at h <;> cases h
  · rintro ⟨hf, ⟨t, rfl⟩, rfl⟩
    have hle : f.wireLen - 2 ≤ 1024 := hf
    have h8 := f.frameOverhead_le_wireLen
    have hh : PlausibleHeader (f.encode ++ t) (f.wireLen - 2) := by
      refine ⟨f.dir.byte, (f.lenField >>> 8).toUInt8, (f.lenField &&& 0xFF).toUInt8,
        f.cmd :: (f.payload ++ [checksum f.body, terminator]) ++ t, by simp [Frame.encode_eq],
        ?_, by omega, hle⟩
      rw [Frame.u16FromBeBytes_lenField, hf.toNat_lenField]
    rw [verdict_of_header hh, if_neg (by simp; omega)]
    have hn : f.wireLen - 2 + 2 = f.encode.length := by rw [Frame.length_encode]; omega
    rw [hn, List.take_left, Frame.decode_encode, Frame.length_encode]

/-- **The receiver reports exactly the plausible headers whose bytes fail validation.** -/
theorem verdict_eq_reject_iff {l : Bytes} {e : FrameError} :
    verdict l = .reject e ↔ ∃ len, PlausibleHeader l len ∧ len + 2 ≤ l.length ∧
      Frame.decode (l.take (len + 2)) = .error e := by
  constructor
  · intro h
    by_cases hh : ∃ len, PlausibleHeader l len
    · obtain ⟨len, hlen⟩ := hh
      rw [verdict_of_header hlen] at h
      split_ifs at h with hshort
      split at h
      · cases h
      · next hdec =>
          cases h
          exact ⟨len, hlen, Nat.le_of_not_lt hshort, hdec⟩
    · push Not at hh
      rcases verdict_of_no_header hh with hv | ⟨hv, -⟩ <;> rw [hv] at h <;> cases h
  · rintro ⟨len, hlen, hle, hdec⟩
    rw [verdict_of_header hlen, if_neg (by omega), hdec]

/-- A validation failure behind a plausible header is one of three. -/
theorem error_of_verdict_reject {l : Bytes} {e : FrameError} (h : verdict l = .reject e) :
    (∃ b, e = .badTerminator b) ∨ (∃ c g, e = .badChecksum c g) ∨ ∃ b, e = .badDir b := by
  obtain ⟨len, ⟨dir, hi, lo, tail, rfl, rfl, h6, -⟩, hle, hdec⟩ := verdict_eq_reject_iff.mp h
  simp only [List.length_cons] at hle
  obtain ⟨k, hk⟩ : ∃ k, (u16FromBeBytes hi lo).toNat + 2 = k + 5 :=
    ⟨(u16FromBeBytes hi lo).toNat - 3, by omega⟩
  rw [hk] at hdec
  simp only [List.take_succ_cons] at hdec
  have hlen : (tail.take k).length = k := by rw [List.length_take]; omega
  exact Frame.decode_error_of_header ⟨rfl, rfl⟩ (by rw [hlen]; omega) (by rw [hlen]; omega) hdec

/-- **A decision is not changed by later bytes.** -/
theorem verdict_append (l s : Bytes) (h : verdict l ≠ .wait) : verdict (l ++ s) = verdict l := by
  cases hv : verdict l with
  | wait => exact absurd hv h
  | accept n f =>
      obtain ⟨hf, hpre, hn⟩ := verdict_eq_accept_iff.mp hv
      exact verdict_eq_accept_iff.mpr ⟨hf, hpre.trans (List.prefix_append l s), hn⟩
  | reject e =>
      obtain ⟨len, ⟨dir, hi, lo, tail, rfl, hlen⟩, hle, hdec⟩ := verdict_eq_reject_iff.mp hv
      refine verdict_eq_reject_iff.mpr
        ⟨len, ⟨dir, hi, lo, tail ++ s, by simp, hlen⟩, by simp at hle ⊢; omega, ?_⟩
      rwa [List.take_append_of_le_length hle]
  | skip =>
      match l with
      | [] => simp [verdict] at hv
      | [b0] =>
          have h0 : b0 ≠ magic0 := fun h0 => by simp [verdict, h0] at hv
          simp [verdict, h0]
      | b0 :: b1 :: rest1 =>
          by_cases h0 : b0 = magic0
          · by_cases h1 : b1 = magic1
            · match rest1 with
              | dir :: hi :: lo :: tail =>
                  by_cases hr : lenInRange (u16FromBeBytes hi lo) = true
                  · have hp := lenInRange_iff.mp hr
                    rw [h0, h1, verdict_of_header ⟨dir, hi, lo, tail, rfl, rfl, hp⟩] at hv
                    split_ifs at hv
                    split at hv <;> cases hv
                  · simp [verdict, h0, h1, hr]
              | [] | [_] | [_, _] => simp [verdict, h0, h1] at hv
            · simp [verdict, h0, h1]
          · simp [verdict, h0]

/-- **The scanner of the frame format**: the receiver's decision as a resynchronising
scanner over bytes. -/
def frames : Scanner UInt8 FrameError Frame where
  verdict := verdict
  verdict_nil := rfl
  verdict_append := verdict_append
  accept_bounds l n f h := by
    obtain ⟨-, hpre, rfl⟩ := verdict_eq_accept_iff.mp h
    have := f.frameOverhead_le_wireLen
    have := hpre.length_le
    rw [Frame.length_encode] at this
    omega

/-- The scanner of frames judges as the receiver does. -/
@[simp] theorem frames_verdict (l : Bytes) : frames.verdict l = verdict l := rfl

/-- One item of the stream. -/
abbrev StreamItem := Item UInt8 FrameError Frame

/-- The scanner stops exactly where the receiver cannot decide. -/
theorem frames_next_eq_none_iff {l : Bytes} : frames.next l = none ↔ Undecided l :=
  frames.next_eq_none_iff.trans verdict_eq_wait_iff

/-- Taking a frame off the front of the stream. -/
theorem frames_next_encode {f : Frame} (hf : f.LenPlausible) (t : Bytes) :
    frames.next (f.encode ++ t) = some (.accepted f.encode f, t) := by
  have hv : frames.verdict (f.encode ++ t) = .accept f.wireLen f :=
    verdict_eq_accept_iff.mpr ⟨hf, List.prefix_append _ _, rfl⟩
  rw [frames.next_of_accept hv, ← Frame.length_encode, List.take_left, List.drop_left]

/-- An accepted item is a plausible frame, and consumes its wire image. -/
theorem frames_next_accepted {l r w : Bytes} {f : Frame}
    (h : frames.next l = some (.accepted w f, r)) : f.LenPlausible ∧ w = f.encode := by
  obtain ⟨n, hv, rfl, -⟩ := frames.next_accepted h
  obtain ⟨hf, ⟨t, rfl⟩, rfl⟩ := verdict_eq_accept_iff.mp hv
  rw [← Frame.length_encode, List.take_left]
  exact ⟨hf, rfl⟩

/-! ### The two loops perform a reading -/

namespace Receiver

/-- What each outcome of the hunt over `buf` says about the buffer it leaves. -/
def HuntEnds (buf : Bytes) : Hunt → Bytes → Prop
  | .needMore, buf' => frames.next buf' = none
  | .advanced, buf' => buf'.length < buf.length
  | .frame n, buf' => ∃ len, PlausibleHeader buf' len ∧ n = len + 2 ∧ n ≤ buf'.length

/-- What ends the hunt from a shorter buffer ends it from a longer one. -/
theorem HuntEnds.mono {buf buf₁ buf' : Bytes} {h : Hunt} (hle : buf₁.length ≤ buf.length)
    (he : HuntEnds buf₁ h buf') : HuntEnds buf h buf' := by
  cases h with
  | needMore => exact he
  | advanced => exact Nat.lt_of_lt_of_le he hle
  | frame n => exact he

/-- **The hunt loop is a run of silent drops**, ended by the first position that is
undecided, out of range, or carries a complete candidate. -/
theorem huntLoop_reads (d buf : Bytes) :
    ∃ its : List StreamItem, Reads frames buf its (huntLoop d buf).2.buf ∧
      its.filterMap Item.output = [] ∧
      (huntLoop d buf).2.discarded = d ++ its.flatMap Item.discarded ∧
      HuntEnds buf (huntLoop d buf).1 (huntLoop d buf).2.buf := by
  fun_induction huntLoop d buf with
  | case1 d => exact ⟨[], .nil _, rfl, by simp, frames.next_nil⟩
  | case2 d b0 rest h0 ih =>
      obtain ⟨its, hr, hout, hdisc, hend⟩ := ih
      have hn : frames.next (b0 :: rest) = some (.skipped b0, rest) :=
        frames.next_of_skip (by simp [verdict, h0])
      exact ⟨.skipped b0 :: its, .cons hn hr, by simpa using hout, by simp [hdisc],
        hend.mono (by simp)⟩
  | case3 d b0 h0 =>
      obtain rfl := not_not.mp h0
      exact ⟨[], .nil _, rfl, by simp, frames_next_eq_none_iff.mpr (.inr (.inl rfl))⟩
  | case4 d b0 h0 b1 rest1 h1 ih =>
      obtain ⟨its, hr, hout, hdisc, hend⟩ := ih
      have hn : frames.next (b0 :: b1 :: rest1) = some (.skipped b0, b1 :: rest1) :=
        frames.next_of_skip (by simp [verdict, h1])
      exact ⟨.skipped b0 :: its, .cons hn hr, by simpa using hout, by simp [hdisc],
        hend.mono (by simp)⟩
  | case5 d b0 h0 b1 h1 b2 hi lo tail declared hr =>
      have hout : lenInRange (u16FromBeBytes hi lo) = false := by simpa using hr
      have hn : frames.next (b0 :: b1 :: b2 :: hi :: lo :: tail) =
          some (.skipped b0, b1 :: b2 :: hi :: lo :: tail) :=
        frames.next_of_skip (by simp [verdict, hout])
      exact ⟨[.skipped b0], .single hn, rfl, by simp, by simp [HuntEnds]⟩
  | case6 d b0 h0 b1 h1 b2 hi lo tail declared hr n hshort =>
      obtain rfl := not_not.mp h0
      obtain rfl := not_not.mp h1
      have hin := lenInRange_iff.mp (by simpa using hr)
      rw [if_pos hshort]
      exact ⟨[], .nil _, rfl, by simp, frames_next_eq_none_iff.mpr
        (.inr (.inr (.inr ⟨_, ⟨b2, hi, lo, tail, rfl, rfl, hin⟩, hshort⟩)))⟩
  | case7 d b0 h0 b1 h1 b2 hi lo tail declared hr n hlong =>
      obtain rfl := not_not.mp h0
      obtain rfl := not_not.mp h1
      have hin := lenInRange_iff.mp (by simpa using hr)
      rw [if_neg hlong]
      exact ⟨[], .nil _, rfl, by simp,
        ⟨_, ⟨b2, hi, lo, tail, rfl, rfl, hin⟩, rfl, Nat.le_of_not_lt hlong⟩⟩
  | case8 d b0 h0 b1 rest1 h1 hfew =>
      obtain rfl := not_not.mp h0
      obtain rfl := not_not.mp h1
      have h5 : (magic0 :: magic1 :: rest1).length < 5 := by
        match rest1, hfew with
        | [], _ | [_], _ | [_, _], _ => simp
        | b2 :: hi :: lo :: tail, hfew => exact absurd rfl (hfew b2 hi lo tail)
      exact ⟨[], .nil _, rfl, by simp,
        frames_next_eq_none_iff.mpr (.inr (.inr (.inl ⟨⟨rest1, rfl⟩, h5⟩)))⟩

/-- The hunt loop, read off its result. -/
theorem hunt_reads {rx rx' : Receiver} {o : Hunt} (h : rx.hunt = (o, rx')) :
    ∃ its : List StreamItem, Reads frames rx.buf its rx'.buf ∧
      its.filterMap Item.output = [] ∧
      rx'.discarded = rx.discarded ++ its.flatMap Item.discarded ∧
      HuntEnds rx.buf o rx'.buf := by
  have hl := huntLoop_reads rx.discarded rx.buf
  rw [show huntLoop rx.discarded rx.buf = (o, rx') from h] at hl
  exact hl

/-- The hunt advances past an implausible length by at least one byte. -/
theorem hunt_advanced_lt {rx rx' : Receiver} (h : rx.hunt = (.advanced, rx')) :
    rx'.buf.length < rx.buf.length := by
  obtain ⟨-, -, -, -, hend⟩ := hunt_reads h
  exact hend

/-- Pull the next complete, valid frame, discarding anything that is not one; `none` when
more bytes are needed. A plausible frame that fails validation is reported once. -/
def nextFrame (rx : Receiver) : Option (Except FrameError Frame) × Receiver :=
  match h : rx.hunt with
  | (.needMore, rx) => (none, rx)
  | (.advanced, rx₁) =>
      have : rx₁.buf.length < rx.buf.length := hunt_advanced_lt h
      nextFrame rx₁
  | (.frame n, rx) =>
      let bytes := rx.buf.take n
      let buf := rx.buf.drop n
      match Frame.decode bytes with
      | .ok f => (some (.ok f), { rx with buf })
      | .error e =>
          -- put everything but the leading 0x46 back and hunt on from inside the bad run
          let rest := bytes.drop 1
          (some (.error e), { buf := rest ++ buf, discarded := rx.discarded ++ bytes.take 1 })
termination_by rx.buf.length

/-- **One poll is one reading** of the scanner: silent drops, then at most one reported
item; and `none` is answered only where the bytes do not decide. -/
theorem nextFrame_reads (rx : Receiver) :
    ∃ its : List StreamItem, Reads frames rx.buf its rx.nextFrame.2.buf ∧
      its.filterMap Item.output = rx.nextFrame.1.toList ∧
      rx.nextFrame.2.discarded = rx.discarded ++ its.flatMap Item.discarded ∧
      (rx.nextFrame.1 = none → frames.next rx.nextFrame.2.buf = none) := by
  fun_induction nextFrame rx with
  | case1 rx rx' h =>
      obtain ⟨its, hr, hout, hdisc, hend⟩ := hunt_reads h
      exact ⟨its, hr, hout, hdisc, fun _ => hend⟩
  | case2 rx rx₁ h _ ih =>
      obtain ⟨its, hr, hout, hdisc, -⟩ := hunt_reads h
      obtain ⟨its', hr', hout', hdisc', hend'⟩ := ih
      exact ⟨its ++ its', hr.trans hr', by rw [List.filterMap_append, hout, hout']; rfl,
        by rw [hdisc', hdisc, List.flatMap_append, List.append_assoc], hend'⟩
  | case3 rx n rx' h bytes buf f hdec =>
      obtain ⟨its, hr, hout, hdisc, hend⟩ := hunt_reads h
      obtain ⟨len, hlen, rfl, hle⟩ := hend
      have hv : frames.verdict rx'.buf = .accept (len + 2) f := by
        rw [frames_verdict, verdict_of_header hlen, if_neg (by omega), hdec]
      exact ⟨its ++ [.accepted _ f], hr.trans (.single (frames.next_of_accept hv)),
        by simp [hout], by simp [hdisc], fun hc => by cases hc⟩
  | case4 rx n rx' h bytes buf e hdec rest =>
      obtain ⟨its, hr, hout, hdisc, hend⟩ := hunt_reads h
      obtain ⟨len, hlen, rfl, hle⟩ := hend
      have hv : verdict rx'.buf = .reject e :=
        verdict_eq_reject_iff.mpr ⟨len, hlen, hle, hdec⟩
      obtain ⟨dir, hi, lo, tail, hbuf, -⟩ := hlen
      have hpush : rest ++ buf = rx'.buf.drop 1 := by
        rw [← List.drop_append_of_le_length (by simp [bytes, hbuf]), List.take_append_drop]
      have hfirst : bytes.take 1 = [magic0] := by simp [bytes, hbuf]
      have hn : frames.next rx'.buf = some (.rejected magic0 e, rest ++ buf) := by
        rw [hpush, hbuf]
        exact frames.next_of_reject (hbuf ▸ hv)
      exact ⟨its ++ [.rejected magic0 e], hr.trans (.single hn), by simp [hout],
        by simp [hdisc, hfirst], fun hc => by cases hc⟩

/-- Items with these outputs accept nothing, unless one of them is a frame. -/
theorem passes_of_reads {l r : Bytes} {its : List StreamItem}
    {out : List (Except FrameError Frame)} (hr : Reads frames l its r)
    (hout : its.filterMap Item.output = out) (hno : ∀ f, .ok f ∉ out) : Passes frames l r := by
  refine ⟨its, hr, ?_⟩
  intro it hit f hf
  refine hno f ?_
  rw [← hout]
  exact List.mem_filterMap.mpr ⟨it, hit, hf⟩

/-- **A delivered frame** is plausible, and stands in the buffer right before what is left of
it, behind bytes that were passed over. -/
theorem nextFrame_ok {rx rx' : Receiver} {f : Frame} (h : rx.nextFrame = (some (.ok f), rx')) :
    f.LenPlausible ∧ Passes frames rx.buf (f.encode ++ rx'.buf) := by
  fun_induction nextFrame rx with
  | case1 rx rx₁ hh => cases h
  | case2 rx rx₁ hh _ ih =>
      obtain ⟨its, hr, hout, -, -⟩ := hunt_reads hh
      obtain ⟨hf, hpass⟩ := ih h
      exact ⟨hf, (passes_of_reads hr hout (by simp)).trans hpass⟩
  | case3 rx n rx₁ hh bytes buf g hdec =>
      obtain ⟨hg, rfl⟩ := Prod.mk.inj h
      cases hg
      obtain ⟨its, hr, hout, -, len, ⟨-, -, -, -, -, -, -, hmax⟩, rfl, hle⟩ := hunt_reads hh
      have henc : bytes = f.encode := Frame.decode_eq_ok_iff.mp hdec
      have hlen : f.wireLen = len + 2 := by
        rw [← Frame.length_encode, ← henc]
        exact List.length_take_of_le hle
      have hbuf : rx₁.buf = f.encode ++ buf := by
        rw [← henc]
        exact (List.take_append_drop _ _).symm
      refine ⟨by rw [Frame.LenPlausible]; omega, ?_⟩
      rw [← hbuf]
      exact passes_of_reads hr hout (by simp)
  | case4 rx n rx₁ hh bytes buf e hdec rest => cases h

/-- A poll that delivers no frame passes over what it takes off the buffer. -/
theorem nextFrame_passes {rx rx' : Receiver} {o : Option (Except FrameError Frame)}
    (h : rx.nextFrame = (o, rx')) (ho : ∀ f, o ≠ some (.ok f)) :
    Passes frames rx.buf rx'.buf := by
  obtain ⟨its, hr, hout, -, -⟩ := rx.nextFrame_reads
  rw [h] at hr hout
  refine passes_of_reads hr hout ?_
  intro f hf
  exact ho f (Option.mem_toList.mp hf)

/-- **No frame begins** in bytes that are passed over. -/
theorem not_encode_of_passes {l r : Bytes} (h : Passes frames l r) {i : ℕ}
    (hi : i + r.length < l.length) {f : Frame} (hf : f.LenPlausible) :
    ¬ f.encode <+: l.drop i := fun hpre =>
  h.not_accept hi f.wireLen f (verdict_eq_accept_iff.mpr ⟨hf, hpre, rfl⟩)

/-- **Polling makes progress**: a reported result leaves fewer bytes pending. -/
theorem nextFrame_pending {rx rx' : Receiver} {o : Except FrameError Frame}
    (h : rx.nextFrame = (some o, rx')) : rx'.pending < rx.pending := by
  obtain ⟨its, hr, hout, -, -⟩ := rx.nextFrame_reads
  rw [h] at hr hout
  have hne : its.length ≠ 0 := by
    intro h0
    rw [List.length_eq_zero_iff.mp h0] at hout
    cases hout
  have hlen : its.length + rx'.buf.length ≤ rx.buf.length := hr.length_add_le
  simp only [pending]
  omega

end Receiver

end Stcbsl
