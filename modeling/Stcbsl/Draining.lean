import Mathlib.Logic.Function.Iterate
import Stcbsl.Handshake

/-!
# Draining a Receiver

A receiver is drained by polling it until it answers `none`. The loops of a poll end because
each turn of them shortens the buffer, also where a bad frame is pushed back; and each result of
a poll leaves the buffer shorter. So the loops of the driver that go on polling, one of them
without looking at its deadline, end after as many polls as bytes are pending.

## Loops with a bound

In the model a poll is a total function. Beside it stand loops with a bound on their turns, which
answer `none` when the bound is used up and where an index is out of bounds; that they always
answer, and the same, with a bound in terms of the bytes that are pending, says how soon the
loops end (`nextFrameBounded_eq`, `siftBounded_eq`).

## What is held back

When a poll answers `none` the buffer is empty, or a lone first byte of a preamble, or the
beginning of a header, or a plausible header short of the bytes it declares; it is at most
1025 bytes long in all cases. The bound on what a run holds pending rests on this.

## Main results

* `held_back_undecided` — what a receiver holds back when it answers `none`.
* `nextFrameBounded_eq` — a poll ends, within as many turns of its loops as bytes are pending.
* `awaitFrame_eq_rehunt`, `siftBounded_eq` — the loops of the driver around the polls.
* `draining_makes_progress` — draining ends, from every state of the receiver.
-/

namespace Stcbsl

open Resync

namespace Receiver

/-! ### What is held back -/

/-- A poll answers `none` only where the bytes do not decide. -/
theorem undecided_of_nextFrame {rx : Receiver} (h : rx.nextFrame.1 = none) :
    Undecided rx.nextFrame.2.buf := by
  obtain ⟨-, -, -, -, hend⟩ := rx.nextFrame_reads
  exact frames_next_eq_none_iff.mp (hend h)

/-- **What a receiver holds back.** Whatever has been fed to it and in whatever pieces, when a
poll answers `none` the buffer is empty, a lone first magic byte, a preamble without its `LEN`
field, or a plausible header whose frame has not fully arrived; these are 1025 bytes at most. -/
theorem held_back_undecided (calls : List Call) :
    let rx := (calls.foldl Polled.call Polled.start).rx
    let buf := rx.nextFrame.2.buf
    rx.nextFrame.1 = none →
      (buf = [] ∨ buf = [0x46] ∨ ([0x46, 0xB9] <+: buf ∧ buf.length < 5) ∨
        ∃ dir hi lo tail, buf = 0x46 :: 0xB9 :: dir :: hi :: lo :: tail ∧
          let len := hi.toNat * 256 + lo.toNat
          6 ≤ len ∧ len ≤ 1024 ∧ buf.length < len + 2) ∧
      rx.nextFrame.2.pending ≤ 1025 := by
  intro rx buf hnone
  have hund : Undecided buf := undecided_of_nextFrame hnone
  refine ⟨?_, hund.length_le⟩
  obtain h | h | h | ⟨len, ⟨dir, hi, lo, tail, hbuf, rfl, h6, h1024⟩, hshort⟩ := hund
  · exact .inl h
  · exact .inr (.inl h)
  · exact .inr (.inr (.inl h))
  · rw [toNat_u16FromBeBytes] at h6 h1024 hshort
    exact .inr (.inr (.inr ⟨dir, hi, lo, tail, hbuf, h6, h1024, hshort⟩))

/-- `held_back_undecided` behind a noise byte, in the middle of a header. -/
theorem held_back_undecided_header :
    let calls : List Call := [.feed [0x00, 0x46], .nextFrame, .feed [0xB9, 0x68]]
    let rx := (calls.foldl Polled.call Polled.start).rx
    rx.nextFrame.2.buf = [0x46, 0xB9, 0x68] ∧ rx.nextFrame.2.pending ≤ 1025 :=
  ⟨by decide +kernel, (held_back_undecided [.feed [0x00, 0x46], .nextFrame, .feed [0xB9, 0x68]]
    (by decide +kernel)).2⟩

/-! ### The loops of a poll, with a bound on their turns -/

/-- `hunt`, for at most so many turns of its loop; `none` also where an index is out of
bounds. -/
def huntBounded : ℕ → Receiver → Option (Hunt × Receiver)
  | 0, _ => none
  | turns + 1, rx =>
      if rx.buf.isEmpty then some (.needMore, rx)
      else do
        let b0 ← rx.buf[0]?
        -- `self.discarded.push(self.buf.remove(0))`
        let dropped : Receiver := { buf := rx.buf.drop 1, discarded := rx.discarded ++ [b0] }
        if b0 ≠ magic0 then huntBounded turns dropped
        else if rx.buf.length < 2 then some (.needMore, rx)
        else do
          let b1 ← rx.buf[1]?
          if b1 ≠ magic1 then huntBounded turns dropped
          else if rx.buf.length < 5 then some (.needMore, rx)
          else do
            let declared := u16FromBeBytes (← rx.buf[3]?) (← rx.buf[4]?)
            if !lenInRange declared then some (.advanced, dropped)
            else
              let n := declared.toNat + 2
              if rx.buf.length < n then some (.needMore, rx) else some (.frame n, rx)

/-- `next_frame`, for at most so many turns of each of its loops. -/
def nextFrameBounded : ℕ → Receiver → Option (Option (Except FrameError Frame) × Receiver)
  | 0, _ => none
  | turns + 1, rx => do
      match ← huntBounded (turns + 1) rx with
      | (.needMore, rx) => some (none, rx)
      | (.advanced, rx) => nextFrameBounded turns rx
      | (.frame n, rx) =>
          -- `self.buf.drain(..n)`
          let bytes ← slice rx.buf 0 n
          let buf := rx.buf.drop n
          match Frame.decode bytes with
          | .ok f => some (some (.ok f), { rx with buf })
          | .error e =>
              let b ← bytes[0]?
              some (some (.error e),
                { buf := bytes.drop 1 ++ buf, discarded := rx.discarded ++ [b] })

/-- A turn at the first magic byte looks at the second one. -/
theorem huntBounded_magic0 (turns : ℕ) (d : Bytes) (b1 : UInt8) (rest1 : Bytes) :
    huntBounded (turns + 1) { buf := magic0 :: b1 :: rest1, discarded := d } =
      if b1 ≠ magic1 then
        huntBounded turns { buf := b1 :: rest1, discarded := d ++ [magic0] }
      else
        match rest1 with
        | _ :: hi :: lo :: _ =>
            let declared := u16FromBeBytes hi lo
            if !lenInRange declared then
              some (.advanced, { buf := b1 :: rest1, discarded := d ++ [magic0] })
            else if (magic0 :: b1 :: rest1).length < declared.toNat + 2 then
              some (.needMore, { buf := magic0 :: b1 :: rest1, discarded := d })
            else
              some (.frame (declared.toNat + 2), { buf := magic0 :: b1 :: rest1, discarded := d })
        | _ => some (.needMore, { buf := magic0 :: b1 :: rest1, discarded := d }) := by
  by_cases h1 : b1 ≠ magic1
  · simp [huntBounded, h1]
  · match rest1 with
    | [] | [_] | [_, _] => simp [huntBounded, h1]
    | dir :: hi :: lo :: tail =>
        have htwo : ¬ tail.length + 1 + 1 + 1 + 1 + 1 < 2 := by omega
        have hfive : ¬ tail.length + 1 + 1 + 1 + 1 + 1 < 5 := by omega
        rw [not_not] at h1
        simp [huntBounded, h1, htwo, hfive]

/-- **The loop of `hunt` ends**: each of its turns drops a byte. -/
theorem huntBounded_eq {turns : ℕ} {rx : Receiver} (h : rx.pending < turns) :
    huntBounded turns rx = some rx.hunt := by
  obtain ⟨buf, discarded⟩ := rx
  simp only [hunt, pending] at h ⊢
  obtain ⟨turns, rfl⟩ := Nat.exists_eq_succ_of_ne_zero (by omega : turns ≠ 0)
  fun_induction huntLoop discarded buf generalizing turns with
  | case1 d => rfl
  | case2 d b0 rest h0 ih =>
      obtain ⟨turns, rfl⟩ := Nat.exists_eq_succ_of_ne_zero (by simp at h; omega : turns ≠ 0)
      rw [huntBounded]
      simpa [h0] using ih turns (by simpa using h)
  | case3 d b0 h0 => simp [huntBounded, h0]
  | case4 d b0 h0 b1 rest1 h1 ih =>
      obtain rfl := not_not.mp h0
      obtain ⟨turns, rfl⟩ := Nat.exists_eq_succ_of_ne_zero (by simp at h; omega : turns ≠ 0)
      rw [huntBounded_magic0, if_pos h1]
      exact ih turns (by simpa using h)
  | case5 d b0 h0 b1 h1 b2 hi lo tail declared hr =>
      obtain rfl := not_not.mp h0
      rw [huntBounded_magic0, if_neg h1]
      exact if_pos hr
  | case6 d b0 h0 b1 h1 b2 hi lo tail declared hr n hshort =>
      obtain rfl := not_not.mp h0
      rw [huntBounded_magic0, if_neg h1, if_pos hshort]
      exact (if_neg hr).trans (if_pos hshort)
  | case7 d b0 h0 b1 h1 b2 hi lo tail declared hr n hlong =>
      obtain rfl := not_not.mp h0
      rw [huntBounded_magic0, if_neg h1, if_neg hlong]
      exact (if_neg hr).trans (if_neg hlong)
  | case8 d b0 h0 b1 rest1 h1 hfew =>
      obtain rfl := not_not.mp h0
      rw [huntBounded_magic0, if_neg h1]
      rcases rest1 with _ | ⟨b2, _ | ⟨hi, _ | ⟨lo, tail⟩⟩⟩
      · rfl
      · rfl
      · rfl
      · exact absurd rfl (hfew b2 hi lo tail)

/-- The bytes of a complete candidate are in the buffer, one at least. -/
theorem slice_of_hunt {rx rx' : Receiver} {n : ℕ} (h : rx.hunt = (.frame n, rx')) :
    slice rx'.buf 0 n = some (rx'.buf.take n) ∧
      ∃ b, (rx'.buf.take n)[0]? = some b ∧ (rx'.buf.take n).take 1 = [b] := by
  obtain ⟨-, -, -, -, len, -, rfl, hle⟩ := hunt_reads h
  refine ⟨?_, ?_⟩
  · rw [slice, if_pos ⟨Nat.zero_le _, hle⟩]
    simp [List.extract]
  · cases hbuf : rx'.buf with
    | nil => simp [hbuf] at hle
    | cons b rest => exact ⟨b, rfl, rfl⟩

/-- **The loop of `next_frame` ends**: each of its turns shortens the buffer. -/
theorem nextFrameBounded_eq {turns : ℕ} {rx : Receiver} (h : rx.pending < turns) :
    nextFrameBounded turns rx = some rx.nextFrame := by
  obtain ⟨turns, rfl⟩ := Nat.exists_eq_succ_of_ne_zero (by omega : turns ≠ 0)
  fun_induction nextFrame rx generalizing turns with
  | case1 rx rx' hh =>
      rw [nextFrameBounded, huntBounded_eq h, hh]
      rfl
  | case2 rx rx₁ hh hlt ih =>
      obtain ⟨turns, rfl⟩ := Nat.exists_eq_succ_of_ne_zero (by rw [pending] at h; omega : turns ≠ 0)
      rw [nextFrameBounded, huntBounded_eq h, hh]
      exact ih turns (by simp only [pending] at h ⊢; omega)
  | case3 rx n rx₁ hh bytes buf f hdec =>
      obtain ⟨hslice, -⟩ := slice_of_hunt hh
      rw [nextFrameBounded, huntBounded_eq h, hh]
      simp only [Option.bind_eq_bind, Option.bind_some, hslice]
      rw [show Frame.decode (rx₁.buf.take n) = .ok f from hdec]
  | case4 rx n rx₁ hh bytes buf e hdec rest =>
      obtain ⟨hslice, b, hb, hfirst⟩ := slice_of_hunt hh
      rw [nextFrameBounded, huntBounded_eq h, hh]
      simp only [Option.bind_eq_bind, Option.bind_some, hslice]
      rw [show Frame.decode (rx₁.buf.take n) = .error e from hdec]
      simp only [hb, Option.bind_some]
      rw [show bytes.take 1 = [b] from hfirst]

/-! ### Progress -/

/-- A bad frame costs a byte at least. -/
theorem pending_of_error {rx rx' : Receiver} {e : FrameError}
    (h : rx.nextFrame = (some (.error e), rx')) : rx'.pending + 1 ≤ rx.pending :=
  nextFrame_pending h

/-- A frame costs its wire image at least. -/
theorem pending_of_ok {rx rx' : Receiver} {f : Frame}
    (h : rx.nextFrame = (some (.ok f), rx')) : rx'.pending + f.wireLen ≤ rx.pending := by
  obtain ⟨-, hpass⟩ := nextFrame_ok h
  obtain ⟨d, hd⟩ := hpass.suffix
  simp only [pending, hd, List.length_append, Frame.length_encode]
  omega

/-- **Polling again and again**: a poll answers `none` after as many others as bytes are pending,
at most. -/
theorem exists_poll_none (rx : Receiver) :
    ∃ n ≤ rx.pending, ((fun rx => rx.nextFrame.2)^[n] rx).nextFrame.1 = none := by
  induction hk : rx.pending using Nat.strongRecOn generalizing rx with
  | ind k ih =>
      subst hk
      match h : rx.nextFrame with
      | (none, rx') => exact ⟨0, Nat.zero_le _, by rw [Function.iterate_zero_apply, h]⟩
      | (some o, rx') =>
          have hlt := nextFrame_pending h
          obtain ⟨n, hn, hnone⟩ := ih rx'.pending hlt rx' rfl
          refine ⟨n + 1, by omega, ?_⟩
          rwa [Function.iterate_succ_apply, h]

/-- Without further bytes, the results of a schedule of calls are no more than the bytes that it
takes off the buffer. -/
theorem results_of_calls (s : Polled) (calls : List Call) (hfed : fedBytes calls = []) :
    (calls.foldl Polled.call s).results.length + (calls.foldl Polled.call s).rx.pending ≤
      s.results.length + s.rx.pending := by
  induction calls generalizing s with
  | nil => exact Nat.le_refl _
  | cons c calls ih =>
      rw [fedBytes, List.flatMap_cons, List.append_eq_nil_iff] at hfed
      refine Nat.le_trans (ih (s.call c) hfed.2) ?_
      cases c with
      | feed bytes =>
          have hnone : bytes = [] := hfed.1
          simp [Polled.call, feed, pending, hnone]
      | takeDiscarded => exact Nat.le_refl _
      | nextFrame =>
          rw [Polled.call]
          rcases h : s.rx.nextFrame with ⟨o, rx'⟩
          cases o with
          | none =>
              obtain ⟨its, hr, -⟩ := s.rx.nextFrame_reads
              rw [h] at hr
              have hle : rx'.pending ≤ s.rx.pending := hr.length_le
              simp only [Option.toList_none, List.append_nil]
              omega
          | some o =>
              have hlt := nextFrame_pending h
              simp only [Option.toList_some, List.length_append, List.length_singleton]
              omega

end Receiver

/-! ### The loops of the driver around the polls -/

namespace Driver

open Traced

/-- The turns of the reply loop of `run` that do not look at the deadline: bad frames are noted
and passed over, up to a frame or to where the bytes do not decide. -/
def rehunt (rx : Receiver) : Program (Option Frame × Receiver) :=
  match h : rx.nextFrame with
  | (none, rx') => pure (none, rx')
  | (some result, rx') =>
      have : rx'.takeDiscarded.2.pending < rx.pending :=
        show rx'.pending < rx.pending from Receiver.nextFrame_pending h
      do
        logDiscarded rx'.takeDiscarded.1
        match result with
        | .ok f => pure (some f, rx'.takeDiscarded.2)
        | .error e => do
            log (.note ("re-hunting after a bad frame: " ++ e.display))
            rehunt rx'.takeDiscarded.2
termination_by rx.pending

/-- What the reply loop does behind these turns: it is done with a frame, or looks at the deadline
and reads. -/
def afterRehunt (w : World) (session : Session) (x : Send) (deadline fuel : ℕ) :
    Option Frame × Receiver → Program (Frame × Receiver)
  | (some f, rx) => pure (f, rx)
  | (none, rx) => do
      let t ← w.clock
      if t ≥ deadline then
        Prog.fail (.error (wrap session (.timeout x.label x.timeoutMs)))
      else do
        let bytes ← w.readSome session
        awaitFrame w session x deadline fuel (if bytes = [] then rx else rx.feed bytes)

/-- The turns that do not look at the deadline end, and never with an error. -/
theorem rehunt_run (rx : Receiver) (h : List Event) : ∃ r t, rehunt rx h = (.ok r, t) := by
  fun_induction rehunt rx generalizing h with
  | case1 rx rx' hn => exact ⟨_, _, rfl⟩
  | case2 rx result rx' hn hlt ih =>
      obtain ⟨t, hlog, -, -⟩ := logDiscarded_run rx'.takeDiscarded.1 h
      cases result with
      | ok f => exact ⟨_, _, Prog.bind_of_ok hlog rfl⟩
      | error e =>
          obtain ⟨r, t', hrun⟩ := ih (h ++ t ++ [.log (.note ("re-hunting after a bad frame: " ++
            e.display))])
          exact ⟨_, _, Prog.bind_of_ok hlog (Prog.bind_of_ok rfl hrun)⟩

/-- **The reply loop comes to its deadline, or to a frame**, after as many turns as bytes are
pending, at most. -/
theorem awaitFrame_eq_rehunt (w : World) (session : Session) (x : Send) (deadline : ℕ)
    (rx : Receiver) :
    ∃ n ≤ rx.pending, ∀ fuel, awaitFrame w session x deadline (fuel + n + 1) rx =
      rehunt rx >>= afterRehunt w session x deadline fuel := by
  fun_induction rehunt rx with
  | case1 rx rx' hn =>
      refine ⟨0, Nat.zero_le _, fun fuel => ?_⟩
      rw [awaitFrame, hn, pure_bind]
      rfl
  | case2 rx result rx' hn hlt ih =>
      cases result with
      | ok f =>
          refine ⟨0, Nat.zero_le _, fun fuel => ?_⟩
          rw [awaitFrame, hn, bind_assoc]
          simp only [pure_bind]
          rfl
      | error e =>
          obtain ⟨n, hle, heq⟩ := ih
          refine ⟨n + 1, by omega, fun fuel => ?_⟩
          rw [awaitFrame, hn, bind_assoc]
          simp only [bind_assoc, ← heq]
          rfl

/-- The inner loop of the handshake, for at most so many turns. -/
def siftBounded (family : ProtocolFamily) (opts : SessionOptions) :
    ℕ → Receiver → ℕ → Program (Option (Except ProtocolError TargetInfo) × Receiver × ℕ)
  | 0, _, _ => Prog.fail .outOfFuel
  | turns + 1, rx, noise =>
      match rx.nextFrame with
      | (none, rx) => pure (none, rx, noise)
      | (some result, rx) => do
          let (d, rx) := rx.takeDiscarded
          let noise := noise + d.length
          logDiscarded d
          match result with
          | .ok frame =>
              if family.isStatusFrame frame then do
                log (.reply frame)
                pure (some (family.parseStatus frame opts.handshakeBaud), rx, noise)
              else do
                log (.note ("ignoring a frame with cmd 0x" ++ hex02 frame.cmd ++ " during sync"))
                siftBounded family opts turns rx noise
          | .error e => do
              log (.note ("discarding a malformed frame during sync: " ++ e.display))
              siftBounded family opts turns rx noise

/-- **The inner loop of the handshake ends**: each of its turns shortens the buffer. -/
theorem siftBounded_eq {family : ProtocolFamily} {opts : SessionOptions} {turns : ℕ}
    {rx : Receiver} (noise : ℕ) (h : rx.pending < turns) :
    siftBounded family opts turns rx noise = sift family opts rx noise := by
  obtain ⟨turns, rfl⟩ := Nat.exists_eq_succ_of_ne_zero (by omega : turns ≠ 0)
  fun_induction sift family opts rx noise generalizing turns with
  | case1 rx noise rx' hn => rw [siftBounded, hn]
  | case2 rx noise result rx' hn hlt d ih =>
      obtain ⟨turns, rfl⟩ := Nat.exists_eq_succ_of_ne_zero (by omega : turns ≠ 0)
      have hrest : siftBounded family opts (turns + 1) rx'.takeDiscarded.2
          (noise + rx'.takeDiscarded.1.length) =
            sift family opts rx'.takeDiscarded.2 (noise + rx'.takeDiscarded.1.length) :=
        ih turns (by omega)
      rw [siftBounded, hn]
      simp only [hrest]
      rfl

/-- **Draining always makes progress.** From every state of the receiver a poll ends, within as
many turns of its loops as bytes are pending. A bad frame leaves fewer bytes pending, a frame
fewer by its wire length; without further bytes, a poll answers `none` after as many others as
bytes are pending, at most. So the reply loop of `run` comes to a frame, or to its deadline,
after as many turns that do not look at it, and the inner loop of `handshake` ends. -/
theorem draining_makes_progress (rx : Receiver) :
    (∀ turns, rx.pending < turns → rx.nextFrameBounded turns = some rx.nextFrame) ∧
    (∀ e rx', rx.nextFrame = (some (.error e), rx') → rx'.pending + 1 ≤ rx.pending) ∧
    (∀ f rx', rx.nextFrame = (some (.ok f), rx') →
      rx'.pending + f.wireLen ≤ rx.pending ∧ 8 ≤ f.wireLen) ∧
    (∃ n ≤ rx.pending, ((fun rx => rx.nextFrame.2)^[n] rx).nextFrame.1 = none) ∧
    (∀ (calls : List Receiver.Call) results taken, fedBytes calls = [] →
      (calls.foldl Receiver.Polled.call { rx, results, taken }).results.length ≤
        results.length + rx.pending) ∧
    (∀ w session x deadline, ∃ n ≤ rx.pending, ∀ fuel,
      awaitFrame w session x deadline (fuel + n + 1) rx =
        rehunt rx >>= afterRehunt w session x deadline fuel) ∧
    (∀ h, ∃ r t, rehunt rx h = (.ok r, t)) ∧
    ∀ family opts noise turns h, rx.pending < turns →
      ∃ r t, siftBounded family opts turns rx noise h = (.ok r, t) := by
  refine ⟨fun _ => Receiver.nextFrameBounded_eq, fun _ _ => Receiver.pending_of_error,
    fun f _ hf => ⟨Receiver.pending_of_ok hf, f.frameOverhead_le_wireLen⟩,
    Receiver.exists_poll_none rx, ?_, fun w session x deadline =>
      awaitFrame_eq_rehunt w session x deadline rx, rehunt_run rx, ?_⟩
  · intro calls results taken hfed
    exact Nat.le_trans (Nat.le_add_right _ _)
      (Receiver.results_of_calls { rx, results, taken } calls hfed)
  · intro family opts noise turns h hlt
    obtain ⟨found, rx', noise', t, -, hrun, -⟩ := sift_run family opts rx noise h
    exact ⟨_, t, by rw [siftBounded_eq noise hlt, hrun]⟩

end Driver

end Stcbsl
