import Stcbsl.Driver
import Stcbsl.Stream

/-!
# The Handshake

The handshake of `driver.rs`: pulse the sync byte at the handshake rate, read whatever arrives,
and wait for the status packet. The loop around it is bounded by a clock that may show
anything; the loop inside, which takes every frame out of the receiver, ends because the
receiver's buffer shrinks with each of them.

Between two reads the receiver has been drained, and none of the frames it has delivered was a
status packet (`Sifted`). So at every point where the handshake can stop, what it answers is
told by the bytes read so far alone (`EndsOn`).

## What a stream delivers

The frames that a stream delivers, and what stays pending behind them, are those of its scan
(`deliveredFrames`, `delivered_of_stuck`). Every byte read is thrown away, part of a delivered
frame, or left over (`length_of_reads`), and a handshake that runs out of time reports as noise
how many were thrown away.

## The family of the target

The functions of the protocol family that the handshake calls are parameters here
(`ProtocolFamily`), as they are in the source; `Stc89.family` is the one instance there is.

## Main results

* `sift_run` — what the inner loop does to the receiver and to the count of noise.
* `handshake_endsOn` — how a handshake ends, in terms of the bytes read.
* `handshake_accounts` — it answers with the first status packet, and accounts for every byte.
-/

namespace Stcbsl

open Resync

/-! ### What a stream delivers -/

/-- The valid frames a receiver extracts from a stream. -/
def deliveredFrames (stream : Bytes) : List Frame :=
  (extract [.feed stream]).results.filterMap Except.toOption

/-- The frames among the items of a reading. -/
def framesOf (its : List StreamItem) : List Frame :=
  (its.filterMap Item.output).filterMap Except.toOption

/-- The frames among the items of two readings. -/
@[simp] theorem framesOf_append (its its' : List StreamItem) :
    framesOf (its ++ its') = framesOf its ++ framesOf its' := by
  rw [framesOf, List.filterMap_append, List.filterMap_append]
  rfl

/-- A stream fed at once is given out as it is scanned. -/
theorem extract_feed (stream : Bytes) :
    extract [.feed stream] = extractionOf (scan frames stream).1 (scan frames stream).2 := by
  have hfed : fedBytes [.feed stream] = stream := List.append_nil stream
  rw [extract_eq_scan, hfed]

/-- A reading that cannot go on delivers everything there is, and leaves what stays pending. -/
theorem delivered_of_stuck {stream r : Bytes} {its : List StreamItem}
    (h : Reads frames stream its r) (hstuck : frames.next r = none) :
    deliveredFrames stream = framesOf its ∧ (extract [.feed stream]).pending = r := by
  rw [deliveredFrames, extract_feed, h.eq_scan hstuck]
  exact ⟨rfl, rfl⟩

/-- What a reading delivers comes first. -/
theorem delivered_of_reads {stream r : Bytes} {its : List StreamItem}
    (h : Reads frames stream its r) : ∃ more, deliveredFrames stream = framesOf its ++ more := by
  obtain ⟨hmax, hstuck⟩ := reads_scan frames stream
  obtain ⟨more, hmore, -⟩ := h.extends_to_maximal hmax hstuck
  rw [(delivered_of_stuck hmax hstuck).1, hmore, framesOf_append]
  exact ⟨_, rfl⟩

/-- **Every byte read is accounted for**: it is thrown away, part of a delivered frame, or left
over. -/
theorem length_of_reads {stream r : Bytes} {its : List StreamItem}
    (h : Reads frames stream its r) :
    stream.length = (its.flatMap Item.discarded).length + ((framesOf its).map Frame.wireLen).sum +
      r.length := by
  induction h with
  | nil => simp [framesOf]
  | @cons l l' r it its hn hrest ih =>
      have hword := congrArg List.length (frames.next_word hn).1
      have hone : it.word.length =
          it.discarded.length + ((framesOf [it]).map Frame.wireLen).sum := by
        cases it with
        | accepted w f =>
            obtain ⟨-, rfl⟩ := frames_next_accepted hn
            exact f.length_encode.trans (Nat.zero_add _).symm
        | _ => rfl
      rw [List.length_append, ih, hone] at hword
      have hcons : framesOf (it :: its) = framesOf [it] ++ framesOf its := framesOf_append [it] its
      rw [hcons, List.flatMap_cons, List.length_append, List.map_append, List.sum_append]
      omega

/-- **What stays pending is short of one frame** of the greatest length hunted for. -/
theorem pending_le (stream : Bytes) : (extract [.feed stream]).pending.length ≤ 1025 := by
  obtain ⟨hmax, hstuck⟩ := reads_scan frames stream
  rw [(delivered_of_stuck hmax hstuck).2]
  exact (frames_next_eq_none_iff.mp hstuck).length_le

/-! ### The handshake of the source -/

/-- The functions of a `ProtocolFamily` that the handshake calls. -/
structure ProtocolFamily where
  isStatusFrame : Frame → Bool
  parseStatus : Frame → UInt32 → Except ProtocolError TargetInfo

/-- `impl ProtocolFamily for Stc89`. -/
def Stc89.family : ProtocolFamily := { isStatusFrame, parseStatus }

namespace Driver

open Traced

/-- `SYNC_BYTE`. -/
def syncByte : UInt8 := 0x7F
/-- `PULSE_EVERY`, in nanoseconds. -/
def pulseEvery : ℕ := 30000000
/-- `PARTIAL_STALL`, in nanoseconds. -/
def partialStall : ℕ := 400000000

/-- `Instant::elapsed`, at a reading of the clock: never negative. -/
def elapsed (now : ℕ) (since : ℤ) : ℕ := ((now : ℤ) - since).toNat

/-- A call on the wire, with `?`. -/
def World.callIo (w : World) (op : WireOp) : Program Unit :=
  (Prog.perform fun h => (w.answer h op, .wire op (w.answer h op))).mapError
    fun e => .error (.io e)

/-- A read into the 256 bytes of the handshake's buffer, with `?`. -/
def World.readIo (w : World) : Program Bytes :=
  (Prog.perform fun h =>
    ((w.read h).map (·.val.take 256), .read ((w.read h).map (·.val.take 256)))).mapError
    fun e => .error (.io e)

/-- `rx.pending() > 0 && last_byte.elapsed() < PARTIAL_STALL`. -/
def midFrame (w : World) (rx : Receiver) (lastByte : ℤ) : Program Bool :=
  if rx.pending > 0 then do
    let t ← w.clock
    pure (decide (elapsed t lastByte < partialStall))
  else pure false

/-- `if !mid_frame && last_pulse.elapsed() >= PULSE_EVERY`: send the sync byte. -/
def pulse (w : World) (mid : Bool) (lastPulse : ℤ) : Program ℤ :=
  if mid then pure lastPulse
  else do
    let t ← w.clock
    if elapsed t lastPulse ≥ pulseEvery then do
      w.callIo (.writeAll [syncByte])
      w.callIo .flush
      let t ← w.clock
      pure (t : ℤ)
    else pure lastPulse

/-- Feed what was read, and note when: `if n > 0`. -/
def receive (w : World) (bytes : Bytes) (rx : Receiver) (lastByte : ℤ) :
    Program (Receiver × ℤ) :=
  if bytes = [] then pure (rx, lastByte)
  else do
    let t ← w.clock
    pure (rx.feed bytes, (t : ℤ))

/-- `while let Some(result) = rx.next_frame()`: take the frames out of the receiver, up to the
first status packet. The answer is what that packet parses to, if there is one. -/
def sift (family : ProtocolFamily) (opts : SessionOptions) (rx : Receiver) (noise : ℕ) :
    Program (Option (Except ProtocolError TargetInfo) × Receiver × ℕ) :=
  match h : rx.nextFrame with
  | (none, rx') => pure (none, rx', noise)
  | (some result, rx') =>
      have : rx'.takeDiscarded.2.pending < rx.pending :=
        show rx'.pending < rx.pending from Receiver.nextFrame_pending h
      let d := rx'.takeDiscarded.1
      do
        logDiscarded d
        match result with
        | .ok frame =>
            if family.isStatusFrame frame then do
              log (.reply frame)
              pure (some (family.parseStatus frame opts.handshakeBaud), rx'.takeDiscarded.2,
                noise + d.length)
            else do
              log (.note ("ignoring a frame with cmd 0x" ++ hex02 frame.cmd ++ " during sync"))
              sift family opts rx'.takeDiscarded.2 (noise + d.length)
        | .error e => do
            log (.note ("discarding a malformed frame during sync: " ++ e.display))
            sift family opts rx'.takeDiscarded.2 (noise + d.length)
termination_by rx.pending

/-- `while started.elapsed() < wait`. The fuel bounds the iterations. -/
def waitForStatus (w : World) (family : ProtocolFamily) (opts : SessionOptions)
    (wait started : ℕ) : ℕ → Receiver → ℕ → ℤ → ℤ → Program TargetInfo
  | 0, _, _, _, _ => Prog.fail .outOfFuel
  | fuel + 1, rx, noise, lastPulse, lastByte => do
      let t ← w.clock
      if elapsed t started < wait then do
        let mid ← midFrame w rx lastByte
        let lastPulse ← pulse w mid lastPulse
        let bytes ← w.readIo
        let (rx, lastByte) ← receive w bytes rx lastByte
        let (found, rx, noise) ← sift family opts rx noise
        match found with
        | some (.ok info) => pure info
        | some (.error e) => Prog.fail (.error (.protocol e))
        | none => do
            let (d, rx) := rx.takeDiscarded
            logDiscarded d
            waitForStatus w family opts wait started fuel rx (noise + d.length) lastPulse lastByte
      else Prog.fail (.error (.noBootloader (UInt64.ofNat (wait / 1000000)) noise))

/-- `handshake`. The time to wait is in nanoseconds. -/
def handshake (w : World) (family : ProtocolFamily) (opts : SessionOptions) (wait fuel : ℕ) :
    Program TargetInfo := do
  w.callIo (.setBaud opts.handshakeBaud)
  let started ← w.clock
  -- the first pulse is due at once
  waitForStatus w family opts wait started fuel .new 0 ((started : ℤ) - pulseEvery) started

/-! ### Taking the frames out of the receiver -/

/-- What the frames among the items of a reading say about the result of the inner loop: none of
them is a status packet and the reading cannot go on, or the first status packet among them has
been parsed. -/
def SiftsTo (family : ProtocolFamily) (opts : SessionOptions) (its : List StreamItem)
    (rest : Bytes) : Option (Except ProtocolError TargetInfo) → Prop
  | none => (framesOf its).find? family.isStatusFrame = none ∧ frames.next rest = none
  | some parsed => ∃ f, (framesOf its).find? family.isStatusFrame = some f ∧
      parsed = family.parseStatus f opts.handshakeBaud

/-- Items without a status packet in front change nothing. -/
theorem SiftsTo.prepend {family : ProtocolFamily} {opts : SessionOptions}
    {its its' : List StreamItem} {rest : Bytes} {found : Option (Except ProtocolError TargetInfo)}
    (h : SiftsTo family opts its rest found)
    (hno : (framesOf its').find? family.isStatusFrame = none) :
    SiftsTo family opts (its' ++ its) rest found := by
  cases found with
  | none =>
      refine ⟨?_, h.2⟩
      rw [framesOf_append, List.find?_append, hno, h.1]
      rfl
  | some parsed =>
      obtain ⟨f, hf, hp⟩ := h
      refine ⟨f, ?_, hp⟩
      rw [framesOf_append, List.find?_append, hno, hf]
      rfl

/-- Run behind the history `h`, on a buffer `buf` and with `n` bytes thrown away so far, the
program performs a reading of the buffer as the inner loop does: it reads nothing from the wire,
adds up what it throws away, and answers as `SiftsTo` says. -/
def Sifts (family : ProtocolFamily) (opts : SessionOptions) (buf : Bytes) (n : ℕ)
    (x : Program (Option (Except ProtocolError TargetInfo) × Receiver × ℕ)) (h : List Event) :
    Prop :=
  ∃ found rx' noise' t its, x h = (.ok (found, rx', noise'), t) ∧ readBytes t = [] ∧
    Reads frames buf its rx'.buf ∧
    noise' + rx'.discarded.length = n + (its.flatMap Item.discarded).length ∧
    SiftsTo family opts its rx'.buf found

/-- A result that is noted and passed over comes in front of the rest of the loop. -/
theorem Sifts.pass {family : ProtocolFamily} {opts : SessionOptions} {buf buf' d : Bytes} {n m : ℕ}
    {its : List StreamItem} {line : LogLine} {h : List Event}
    {x : Program (Option (Except ProtocolError TargetInfo) × Receiver × ℕ)}
    (hr : Reads frames buf its buf') (hm : m = n + (its.flatMap Item.discarded).length)
    (hno : (framesOf its).find? family.isStatusFrame = none)
    (hx : ∀ h, Sifts family opts buf' m x h) :
    Sifts family opts buf n (logDiscarded d >>= fun _ => log line >>= fun _ => x) h := by
  obtain ⟨t, hlog, -, hread⟩ := logDiscarded_run d h
  obtain ⟨found, rx', noise', t', its', hrun, hread', hr', hnoise, hend⟩ :=
    hx (h ++ t ++ [.log line])
  refine ⟨found, rx', noise', t ++ ([.log line] ++ t'), its ++ its',
    Prog.bind_of_ok hlog (Prog.bind_of_ok rfl hrun), ?_, hr.trans hr', ?_, hend.prepend hno⟩
  · rw [readBytes_append, readBytes_append, hread, hread']
    rfl
  · rw [List.flatMap_append, List.length_append]
    omega

/-- **What the inner loop does**: it performs a reading of the receiver's buffer, adds up what
is thrown away, and stops behind the first status packet or where the bytes do not decide. -/
theorem sift_run (family : ProtocolFamily) (opts : SessionOptions) (rx : Receiver) (noise : ℕ)
    (h : List Event) :
    Sifts family opts rx.buf (noise + rx.discarded.length) (sift family opts rx noise) h := by
  fun_induction sift family opts rx noise generalizing h with
  | case1 rx noise rx' hn =>
      obtain ⟨its, hr, hout, hdisc, hend⟩ := rx.nextFrame_reads
      rw [hn] at hr hout hdisc hend
      refine ⟨none, rx', noise, [], its, rfl, rfl, hr, ?_, ?_, hend rfl⟩
      · rw [hdisc, List.length_append]
        omega
      · rw [framesOf, hout]
        rfl
  | case2 rx noise result rx' hn hlt d ih =>
      obtain ⟨its, hr, hout, hdisc, -⟩ := rx.nextFrame_reads
      rw [hn] at hr hout hdisc
      have hnoise : noise + d.length =
          noise + rx.discarded.length + (its.flatMap Item.discarded).length := by
        rw [show d = rx'.discarded from rfl, hdisc, List.length_append]
        omega
      cases result with
      | error e =>
          have hno : (framesOf its).find? family.isStatusFrame = none := by
            rw [framesOf, hout]
            rfl
          exact Sifts.pass hr hnoise hno ih
      | ok frame =>
          have hframe : framesOf its = [frame] := by
            rw [framesOf, hout]
            rfl
          by_cases hstatus : family.isStatusFrame frame = true
          · obtain ⟨t, hlog, -, hread⟩ := logDiscarded_run d h
            simp only [if_pos hstatus]
            refine ⟨some (family.parseStatus frame opts.handshakeBaud), rx'.takeDiscarded.2,
              noise + d.length, t ++ [.log (.reply frame)], its, Prog.bind_of_ok hlog rfl, ?_, hr,
              hnoise, ⟨frame, ?_, rfl⟩⟩
            · rw [readBytes_append, hread]
              rfl
            · rw [hframe, List.find?_singleton, if_pos hstatus]
          · have hno : (framesOf its).find? family.isStatusFrame = none := by
              rw [hframe]
              simp [hstatus]
            simp only [if_neg hstatus]
            exact Sifts.pass hr hnoise hno ih

/-! ### Programs that read nothing -/

/-- The program reads nothing, and fails with an error of the wire only. -/
def Silent {α : Type} (x : Program α) : Prop :=
  ∀ h, readBytes (x h).2 = [] ∧ ∀ halt, (x h).1 = .error halt → ∃ io, halt = .error (.io io)

/-- A value at once is silent. -/
theorem silent_pure {α : Type} (a : α) : Silent (pure a : Program α) :=
  fun _ => ⟨rfl, fun _ hr => by cases hr⟩

/-- A look at the clock is silent. -/
theorem silent_clock (w : World) : Silent w.clock :=
  fun _ => ⟨rfl, fun _ hr => by cases hr⟩

/-- A call on the wire is silent. -/
theorem silent_callIo (w : World) (op : WireOp) : Silent (w.callIo op) := by
  intro h
  refine ⟨rfl, ?_⟩
  intro halt hr
  replace hr : (w.answer h op).mapError (fun e => Halt.error (.io e)) = .error halt := hr
  cases ha : w.answer h op with
  | ok u =>
      rw [ha] at hr
      cases hr
  | error io =>
      rw [ha] at hr
      cases hr
      exact ⟨io, rfl⟩

/-- Silent programs compose. -/
theorem Silent.bind {α β : Type} {x : Program α} {f : α → Program β} (hx : Silent x)
    (hf : ∀ a, Silent (f a)) : Silent (x >>= f) := by
  intro h
  match hr : x h with
  | (.error e, t) =>
      have hsilent := hx h
      rw [hr] at hsilent
      rw [Prog.bind_of_error hr]
      refine ⟨hsilent.1, ?_⟩
      rintro halt heq
      cases heq
      exact hsilent.2 _ rfl
  | (.ok a, t) =>
      have hread := (hx h).1
      rw [hr] at hread
      obtain ⟨hread', herr⟩ := hf a (h ++ t)
      rw [Prog.bind_of_ok hr rfl]
      exact ⟨by rw [readBytes_append, hread, hread']; rfl, herr⟩

/-- The question whether a frame is arriving is silent. -/
theorem silent_midFrame (w : World) (rx : Receiver) (lastByte : ℤ) :
    Silent (midFrame w rx lastByte) := by
  rw [midFrame]
  split
  · exact (silent_clock w).bind fun _ => silent_pure _
  · exact silent_pure _

/-- A pulse is silent. -/
theorem silent_pulse (w : World) (mid : Bool) (lastPulse : ℤ) :
    Silent (pulse w mid lastPulse) := by
  rw [pulse]
  split
  · exact silent_pure _
  · refine (silent_clock w).bind fun t => ?_
    split
    · exact (silent_callIo w _).bind fun _ => (silent_callIo w _).bind fun _ =>
        (silent_clock w).bind fun _ => silent_pure _
    · exact silent_pure _

/-- Feeding what was read adds it to the buffer. -/
theorem receive_run (w : World) (bytes : Bytes) (rx : Receiver) (lastByte : ℤ) (h : List Event) :
    ∃ lastByte' t, receive w bytes rx lastByte h = (.ok (rx.feed bytes, lastByte'), t) ∧
      readBytes t = [] := by
  rw [receive]
  split
  · next hb =>
      have hsame : rx.feed bytes = rx := by rw [hb, Receiver.feed, List.append_nil]
      exact ⟨lastByte, [], by rw [hsame]; rfl, rfl⟩
  · exact ⟨_, _, rfl, rfl⟩

/-! ### How a handshake ends -/

/-- The first status packet among the frames that a stream delivers. -/
def firstStatus (family : ProtocolFamily) (stream : Bytes) : Option Frame :=
  (deliveredFrames stream).find? family.isStatusFrame

/-- **How a handshake ends**, in terms of the bytes read: with what the first status packet
parses to, if there is one; else without an answer, and where the time has run out with a count
of noise that leaves no byte unaccounted for. -/
def EndsOn (family : ProtocolFamily) (opts : SessionOptions) (stream : Bytes) :
    Except Halt TargetInfo → Prop
  | .ok info => ∃ f, firstStatus family stream = some f ∧
      family.parseStatus f opts.handshakeBaud = .ok info
  | .error (.error (.protocol e)) => ∃ f, firstStatus family stream = some f ∧
      family.parseStatus f opts.handshakeBaud = .error e
  | .error (.error (.noBootloader _ noise)) => firstStatus family stream = none ∧
      stream.length = noise + ((deliveredFrames stream).map Frame.wireLen).sum +
        (extract [.feed stream]).pending.length
  | .error _ => firstStatus family stream = none

/-- Run behind the history `h`, after the bytes `fed`, the program ends as a handshake does. -/
def Settles (family : ProtocolFamily) (opts : SessionOptions) (fed : Bytes)
    (x : Program TargetInfo) (h : List Event) : Prop :=
  EndsOn family opts (fed ++ readBytes (x h).2) (x h).1

variable {family : ProtocolFamily} {opts : SessionOptions} {fed : Bytes}

/-- A beginning that reads nothing and does not fail. -/
theorem Settles.bind {α : Type} {h t : List Event} {x : Program α} {f : α → Program TargetInfo}
    {a : α} (hx : x h = (.ok a, t)) (hread : readBytes t = [])
    (hf : Settles family opts fed (f a) (h ++ t)) : Settles family opts fed (x >>= f) h := by
  rw [Settles, Prog.bind_of_ok hx rfl, readBytes_append, hread]
  exact hf

/-- A silent beginning, while there has been no status packet. -/
theorem Silent.settles {α : Type} {x : Program α} {f : α → Program TargetInfo} (hx : Silent x)
    (hnone : firstStatus family fed = none) (hf : ∀ a h, Settles family opts fed (f a) h)
    (h : List Event) : Settles family opts fed (x >>= f) h := by
  obtain ⟨hread, herr⟩ := hx h
  match hr : x h with
  | (.ok a, t) =>
      rw [hr] at hread
      exact Settles.bind hr hread (hf a _)
  | (.error e, t) =>
      rw [hr] at hread herr
      obtain ⟨io, rfl⟩ := herr e rfl
      rw [Settles, Prog.bind_of_error hr, hread, List.append_nil]
      exact hnone

/-- An end without reading on. -/
theorem settles_end {r : Except Halt TargetInfo} {x : Program TargetInfo} {h : List Event}
    (hx : x h = (r, [])) (hr : EndsOn family opts fed r) : Settles family opts fed x h := by
  rw [Settles, hx]
  show EndsOn family opts (fed ++ []) r
  rwa [List.append_nil]

/-- A read that fails, or adds its bytes to the stream. -/
theorem settles_read {w : World} {f : Bytes → Program TargetInfo}
    (hnone : firstStatus family fed = none)
    (hf : ∀ bytes h, Settles family opts (fed ++ bytes) (f bytes) h) (h : List Event) :
    Settles family opts fed (w.readIo >>= f) h := by
  cases hr : w.read h with
  | error io =>
      have hrun : w.readIo h = (.error (.error (.io io)), [.read (.error io)]) := by
        rw [World.readIo, Prog.mapError, Prog.perform, hr]
        rfl
      rw [Settles, Prog.bind_of_error hrun]
      show firstStatus family (fed ++ []) = none
      rw [List.append_nil]
      exact hnone
  | ok b =>
      have hrun : w.readIo h = (.ok (b.val.take 256), [.read (.ok (b.val.take 256))]) := by
        rw [World.readIo, Prog.mapError, Prog.perform, hr]
        rfl
      have hrest := hf (b.val.take 256) (h ++ [.read (.ok (b.val.take 256))])
      rw [Settles, Prog.bind_of_ok hrun rfl]
      simpa [Settles, readBytes, Event.bytesRead] using hrest

/-- **The invariant between two reads**: the receiver has been drained, no status packet has
come out of it, and the count of noise is the number of bytes thrown away. -/
structure Sifted (family : ProtocolFamily) (fed : Bytes) (rx : Receiver) (noise : ℕ)
    (its : List StreamItem) : Prop where
  reads : Reads frames fed its rx.buf
  stuck : frames.next rx.buf = none
  noStatus : (framesOf its).find? family.isStatusFrame = none
  noise_eq : noise = (its.flatMap Item.discarded).length
  discarded : rx.discarded = []

namespace Sifted

variable {rx : Receiver} {noise : ℕ} {its : List StreamItem}

/-- In what has been sifted there is no status packet. -/
theorem firstStatus_eq (h : Sifted family fed rx noise its) : firstStatus family fed = none := by
  rw [firstStatus, (delivered_of_stuck h.reads h.stuck).1, h.noStatus]

/-- The bytes read are noise, frames, or still pending. -/
theorem length_eq (h : Sifted family fed rx noise its) :
    fed.length = noise + ((deliveredFrames fed).map Frame.wireLen).sum +
      (extract [.feed fed]).pending.length := by
  obtain ⟨hframes, hpending⟩ := delivered_of_stuck h.reads h.stuck
  rw [hframes, hpending, h.noise_eq]
  exact length_of_reads h.reads

end Sifted

/-- A fresh receiver has sifted nothing. -/
theorem sifted_new (family : ProtocolFamily) : Sifted family [] .new 0 [] where
  reads := .nil _
  stuck := rfl
  noStatus := rfl
  noise_eq := rfl
  discarded := rfl

/-- The first status packet of a reading is the first of the stream. -/
theorem firstStatus_of_reads {r : Bytes} {its : List StreamItem} {f : Frame}
    (h : Reads frames fed its r) (hf : (framesOf its).find? family.isStatusFrame = some f) :
    firstStatus family fed = some f := by
  obtain ⟨more, hmore⟩ := delivered_of_reads h
  rw [firstStatus, hmore, List.find?_append, hf]
  rfl

/-- **The loop around the reads.** The induction is on the fuel; the invariant is carried from
one read to the next. Where the loop ends without a status packet, there has been none. -/
theorem waitForStatus_settles (w : World) (wait started fuel : ℕ) {rx : Receiver} {noise : ℕ}
    {its : List StreamItem} (hsifted : Sifted family fed rx noise its) (lastPulse lastByte : ℤ)
    (h : List Event) :
    Settles family opts fed
      (waitForStatus w family opts wait started fuel rx noise lastPulse lastByte) h := by
  induction fuel generalizing fed rx noise its lastPulse lastByte h with
  | zero => exact settles_end rfl hsifted.firstStatus_eq
  | succ fuel ih =>
      have hnone := hsifted.firstStatus_eq
      refine (silent_clock w).settles hnone (fun t h => ?_) h
      by_cases ht : elapsed t started < wait
      · rw [if_pos ht]
        refine (silent_midFrame w rx lastByte).settles hnone (fun mid h => ?_) h
        refine (silent_pulse w mid lastPulse).settles hnone (fun lastPulse h => ?_) h
        refine settles_read hnone (fun bytes h => ?_) h
        obtain ⟨lastByte', t₁, hrun, hread⟩ := receive_run w bytes rx lastByte h
        refine Settles.bind hrun hread ?_
        obtain ⟨found, rx', noise', t₂, its', hrun, hread, hreads, hnoise, hfound⟩ :=
          sift_run family opts (rx.feed bytes) noise (h ++ t₁)
        refine Settles.bind hrun hread ?_
        have hall : Reads frames (fed ++ bytes) (its ++ its') rx'.buf :=
          (hsifted.reads.append bytes).trans hreads
        have hend := hfound.prepend hsifted.noStatus
        match found, hend with
        | some parsed, ⟨f, hf, hparsed⟩ =>
            have hfirst := firstStatus_of_reads hall hf
            cases parsed with
            | ok info => exact settles_end rfl ⟨f, hfirst, hparsed.symm⟩
            | error e => exact settles_end rfl ⟨f, hfirst, hparsed.symm⟩
        | none, ⟨hno, hstuck⟩ =>
            have hnext : Sifted family (fed ++ bytes) { rx' with discarded := [] }
                (noise' + rx'.discarded.length) (its ++ its') := by
              refine ⟨hall, hstuck, hno, ?_, rfl⟩
              have hfeed : (rx.feed bytes).discarded.length = 0 := by
                rw [Receiver.feed, hsifted.discarded]
                rfl
              rw [List.flatMap_append, List.length_append, ← hsifted.noise_eq]
              omega
            obtain ⟨t₃, hlog, -, hread⟩ := logDiscarded_run rx'.discarded (h ++ t₁ ++ t₂)
            exact Settles.bind hlog hread (ih hnext _ _ _)
      · rw [if_neg ht]
        exact settles_end rfl ⟨hsifted.firstStatus_eq, hsifted.length_eq⟩

/-- **How every handshake ends.** -/
theorem handshake_endsOn (w : World) (family : ProtocolFamily) (opts : SessionOptions)
    (wait fuel : ℕ) :
    EndsOn family opts (readBytes (handshake w family opts wait fuel []).2)
      (handshake w family opts wait fuel []).1 := by
  have hnone := (sifted_new family).firstStatus_eq
  have hsettles : Settles family opts [] (handshake w family opts wait fuel) [] :=
    (silent_callIo w _).settles hnone (fun _ h => (silent_clock w).settles hnone
      (fun started h => waitForStatus_settles w wait started fuel (sifted_new family) _ _ h) h) []
  exact hsettles

/-- Once a status packet has come, the handshake answers with what it parses to. -/
theorem EndsOn.eq_of_firstStatus {stream : Bytes} {r : Except Halt TargetInfo} {f : Frame}
    (h : EndsOn family opts stream r) (hf : firstStatus family stream = some f) :
    r = (family.parseStatus f opts.handshakeBaud).mapError fun e => .error (.protocol e) := by
  have hcontra : firstStatus family stream ≠ none := by
    rw [hf]
    exact Option.some_ne_none f
  match r, h with
  | .ok info, ⟨g, hg, hparse⟩ =>
      obtain rfl : f = g := Option.some.inj (hf.symm.trans hg)
      rw [hparse]
      rfl
  | .error (.error (.protocol e)), ⟨g, hg, hparse⟩ =>
      obtain rfl : f = g := Option.some.inj (hf.symm.trans hg)
      rw [hparse]
      rfl
  | .error (.error (.noBootloader _ _)), ⟨hnone, _⟩ => exact absurd hnone hcontra
  | .error (.error (.io _)), hnone => exact absurd hnone hcontra
  | .error (.error (.session _)), hnone => exact absurd hnone hcontra
  | .error (.error (.frame _)), hnone => exact absurd hnone hcontra
  | .error (.error (.timeout _ _)), hnone => exact absurd hnone hcontra
  | .error (.error (.indeterminateFlash _)), hnone => exact absurd hnone hcontra
  | .error .unreachable, hnone => exact absurd hnone hcontra
  | .error .outOfFuel, hnone => exact absurd hnone hcontra

/-- **The handshake accounts for every byte and picks the first status packet.** Whatever the
wire and the clock do: a handshake that answers with a target or with an error of the protocol
answers with what the first status packet parses to, among the frames that a receiver extracts
from the stream read. One that runs out of time has read no status packet, and the bytes it has
read are the noise it reports, the wire images of the frames it has ignored and the pending
bytes, which are at most 1025. -/
theorem handshake_accounts (w : World) (family : ProtocolFamily) (opts : SessionOptions)
    (wait fuel : ℕ) :
    let result := (handshake w family opts wait fuel []).1
    let stream := readBytes (handshake w family opts wait fuel []).2
    let delivered := deliveredFrames stream
    let pending := (extract [.feed stream]).pending
    (∀ info, result = .ok info → ∃ f, delivered.find? family.isStatusFrame = some f ∧
      family.parseStatus f opts.handshakeBaud = .ok info) ∧
    (∀ e, result = .error (.error (.protocol e)) →
      ∃ f, delivered.find? family.isStatusFrame = some f ∧
        family.parseStatus f opts.handshakeBaud = .error e) ∧
    ∀ ms noise, result = .error (.error (.noBootloader ms noise)) →
      (∀ f ∈ delivered, family.isStatusFrame f = false) ∧
      stream.length = noise + (delivered.map Frame.wireLen).sum + pending.length ∧
      pending.length ≤ 1025 := by
  intro result stream delivered pending
  have hends : EndsOn family opts stream result := handshake_endsOn w family opts wait fuel
  refine ⟨?_, ?_, ?_⟩
  · intro info hr
    rw [hr] at hends
    exact hends
  · intro e hr
    rw [hr] at hends
    exact hends
  · intro ms noise hr
    rw [hr] at hends
    obtain ⟨hnone, hlen⟩ := hends
    refine ⟨?_, hlen, pending_le stream⟩
    intro f hf
    simpa using List.find?_eq_none.mp hnone f hf

end Driver

end Stcbsl
