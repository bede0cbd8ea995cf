import Stcbsl.Calls
import Stcbsl.Course

/-!
# The Loops of the Driver

What has to be shown of conditions that the loops of the driver carry along, one structure for
each loop: the fields are the turns that an iteration can take, with the events of each. A
contract of the whole loop follows once and for all, by induction on the fuel.

## How a rule is used

A property of runs is a choice of conditions: `A` for the wait for a frame, `I`, `J` and `K` for
the points of an iteration of a run, `M` and `H` for those of an iteration of the handshake, and
`Q` and `E` for the two kinds of end. What is left to prove are the fields of the rule, and each
of them is about one turn and has no loop in it. The conditions are told how much fuel is left,
so that the same rules serve for properties that hold of every run and for the proof that a run
ends before its fuel does.

`Stcbsl.Conduct`, `Stcbsl.Causes`, `Stcbsl.EndToEnd`, `Stcbsl.Deadlines` and
`Stcbsl.Transcript` are uses of these rules. Properties that every event of a run has to satisfy
by itself need less, and go by `Guarded` of `Stcbsl.Course`.

## Main results

* `AwaitRule.contract` — the wait for a frame.
* `RunRule.contract` — the loop of a run.
* `PulseRule.contract` — the loop of the handshake.
-/

namespace Stcbsl.Driver

open Traced

/-! ### Lines about discarded bytes -/

/-- The line about discarded bytes, if there are any. -/
def logged (d : Bytes) : List Event := if d.isEmpty then [] else [.log (.discarded d)]

/-- What the line about discarded bytes adds. -/
theorem logDiscarded_apply (d : Bytes) (h : List Event) :
    logDiscarded d h = (.ok (), logged d) := by
  rw [logDiscarded, logged]
  cases d.isEmpty <;> rfl

/-- The line about discarded bytes, in a contract. -/
theorem contract_logged {P : List Event → Prop} {d : Bytes} {Q : Unit → List Event → Prop}
    {E : Halt → List Event → Prop} (hP : ∀ h, P h → Q () (h ++ logged d)) :
    Contract P (logDiscarded d) Q E := by
  intro h hp
  rw [logDiscarded_apply]
  exact hP h hp

/-- A condition that log lines leave alone, behind discarded bytes. -/
theorem logged_of_log {P : List Event → Prop} (hlog : ∀ h line, P h → P (h ++ [.log line]))
    {h : List Event} (hp : P h) (d : Bytes) : P (h ++ logged d) := by
  rw [logged]
  split
  · rwa [List.append_nil]
  · exact hlog h _ hp

/-- An event that is no request leaves the last request as it is. -/
theorem lastRequest_concat {h : List Event} {e : Event} (he : e.request = none) :
    lastRequest (h ++ [e]) = lastRequest h := by
  rw [lastRequest, List.filterMap_append, List.filterMap_cons_none he, List.filterMap_nil,
    List.append_nil]
  rfl

/-! ### Waiting for a frame -/

/-- **A condition `A` that the wait for a frame carries along**, with so much fuel left and with
such a receiver. -/
structure AwaitRule (session : Session) (x : Send) (deadline : ℕ)
    (A : ℕ → Receiver → List Event → Prop) (Q : Frame × Receiver → List Event → Prop)
    (E : Halt → List Event → Prop) : Prop where
  spent : ∀ {rx h}, A 0 rx h → E .outOfFuel h
  /-- a valid frame ends the wait -/
  frame : ∀ {fuel rx f rx' h}, rx.nextFrame = (some (.ok f), rx') → A (fuel + 1) rx h →
    Q (f, rx'.takeDiscarded.2) (h ++ logged rx'.discarded)
  /-- a bad frame is noted and passed over -/
  rehunt : ∀ {fuel rx e rx' h}, rx.nextFrame = (some (.error e), rx') → A (fuel + 1) rx h →
    A fuel rx'.takeDiscarded.2 (h ++ logged rx'.discarded ++
      [.log (.note ("re-hunting after a bad frame: " ++ e.display))])
  /-- without a frame the clock is looked at -/
  late : ∀ {fuel rx rx' h t}, rx.nextFrame = (none, rx') → A (fuel + 1) rx h → deadline ≤ t →
    E (.error (wrap session (.timeout x.label x.timeoutMs))) (h ++ [.now t])
  read : ∀ {fuel rx rx' h t bytes}, rx.nextFrame = (none, rx') → A (fuel + 1) rx h →
    t < deadline → bytes.length ≤ 512 →
      A fuel (rx'.feed bytes) (h ++ [.now t] ++ [.read (.ok bytes)])
  fails : ∀ {fuel rx rx' h t io}, rx.nextFrame = (none, rx') → A (fuel + 1) rx h →
    t < deadline →
      E (.error (wrap session (.io io))) (h ++ [.now t] ++ [.read (.error io)])

/-- Feeding nothing changes nothing. -/
theorem feed_of_read (rx : Receiver) (bytes : Bytes) :
    (if bytes = [] then rx else rx.feed bytes) = rx.feed bytes := by
  split
  · next hb => rw [hb, Receiver.feed, List.append_nil]
  · rfl

/-- **The wait for a frame.** The induction is on the fuel. -/
theorem AwaitRule.contract {w : World} {session : Session} {x : Send} {deadline : ℕ}
    {A : ℕ → Receiver → List Event → Prop} {Q : Frame × Receiver → List Event → Prop}
    {E : Halt → List Event → Prop} (rule : AwaitRule session x deadline A Q E) (fuel : ℕ)
    (rx : Receiver) : Contract (A fuel rx) (awaitFrame w session x deadline fuel rx) Q E := by
  induction fuel generalizing rx with
  | zero => exact contract_fail fun h ha => rule.spent ha
  | succ fuel ih =>
      rw [awaitFrame]
      rcases hn : rx.nextFrame with ⟨_ | e | f, rx'⟩
      · refine Contract.bind (R := fun t h => ∃ h', h = h' ++ [.now t] ∧ A (fuel + 1) rx h')
          (contract_clock fun h ha => ⟨h, rfl, ha⟩) fun t => ?_
        split
        · next hlate =>
          refine contract_fail ?_
          rintro _ ⟨h, rfl, ha⟩
          exact rule.late hn ha hlate
        · next hlate =>
          refine Contract.bind (R := fun bytes h => A fuel (rx'.feed bytes) h)
            (contract_readSome ?_ ?_) fun bytes => ?_
          · rintro _ bytes hlen ⟨h, rfl, ha⟩
            exact rule.read hn ha (Nat.lt_of_not_le hlate) hlen
          · rintro _ io ⟨h, rfl, ha⟩
            exact rule.fails hn ha (Nat.lt_of_not_le hlate)
          · rw [feed_of_read]
            exact ih _
      · refine Contract.bind (R := fun _ h => ∃ h', h = h' ++ logged rx'.discarded ∧
          A (fuel + 1) rx h') (contract_logged fun h ha => ⟨h, rfl, ha⟩) fun _ => ?_
        refine Contract.bind (R := fun _ => A fuel rx'.takeDiscarded.2) (contract_emit ?_)
          fun _ => ih _
        rintro _ ⟨h, rfl, ha⟩
        exact rule.rehunt hn ha
      · refine Contract.bind (R := fun _ => Q (f, rx'.takeDiscarded.2))
          (contract_logged fun h ha => rule.frame hn ha) fun _ => contract_pure fun h hq => hq

/-! ### The loop of a run -/

/-- Sending a request: all of its script, or a call that fails in it. -/
theorem contract_transmit {w : World} {drain : DrainConfig} {session : Session} {x : Send}
    {rx : Receiver} {P : List Event → Prop} {Q : Receiver → List Event → Prop}
    {E : Halt → List Event → Prop}
    (hsent : ∀ h, P h → Q (receiverFor x rx) (h ++ script drain x))
    (hfails : ∀ h pre op io post, P h → script drain x = pre ++ .wire op (.ok ()) :: post →
      E (.error (wrap session (.io io))) (h ++ pre ++ [.wire op (.error io)])) :
    Contract P (transmit w drain session x rx) Q E := by
  intro h hp
  rcases transmit_follows w drain session x rx h with hok |
    ⟨pre, _, post, _, _, hscript, ⟨op, io, rfl, rfl, rfl⟩, herr⟩
  · rw [hok]
    exact hsent h hp
  · rw [herr, ← List.append_assoc]
    exact hfails h pre op io post hp hscript

/-- Waiting for a reply: a look at the clock, the wait for a frame, and lines of the log. -/
theorem contract_awaitReply {w : World} {session : Session} {x : Send} {fuel : ℕ} {rx : Receiver}
    {P : List Event → Prop} {R Q : Frame × Receiver → List Event → Prop}
    {E : Halt → List Event → Prop}
    (hwait : ∀ t, Contract (fun h => ∃ h', h = h' ++ [.now t] ∧ P h')
      (awaitFrame w session x (t + x.timeoutMs.toNat * 1000000) fuel rx) R E)
    (hheard : ∀ f rx' h, R (f, rx') h →
      Q (f, rx'.takeDiscarded.2) (h ++ logged rx'.discarded ++ [.log (.reply f)])) :
    Contract P (awaitReply w session x fuel rx) Q E := by
  rw [awaitReply]
  refine Contract.bind (R := fun t h => ∃ h', h = h' ++ [.now t] ∧ P h')
    (contract_clock fun h hp => ⟨h, rfl, hp⟩) fun t => (hwait t).bind ?_
  rintro ⟨f, rx'⟩
  refine Contract.bind (R := fun _ h => ∃ h', h = h' ++ logged rx'.discarded ∧ R (f, rx') h')
    (contract_logged fun h hr => ⟨h, rfl, hr⟩) fun _ => ?_
  refine Contract.bind (R := fun _ => Q (f, rx'.takeDiscarded.2)) (contract_emit ?_)
    fun _ => contract_pure fun h hq => hq
  rintro _ ⟨h, rfl, hr⟩
  exact hheard f rx' h hr

/-- **A condition `I` that the loop of a run carries along**, with so much fuel left, such a
session and such a receiver. While a request is dealt with, `J` holds behind its script, and `K`
once a frame was heard. -/
structure RunRule (w : World) (drain : DrainConfig) (I : ℕ → Session → Receiver → List Event → Prop)
    (J : ℕ → (s : Session) → s.index < s.steps.length → Receiver → List Event → Prop)
    (K : ℕ → (s : Session) → s.index < s.steps.length → Frame × Receiver → List Event → Prop)
    (Q : Session → List Event → Prop) (E : Halt → List Event → Prop) : Prop where
  spent : ∀ {s rx h}, I 0 s rx h → E .outOfFuel h
  finished : ∀ {fuel s rx h}, I (fuel + 1) s rx h → s.steps.length ≤ s.index →
    Q s (h ++ [.session (.action .finished) rx.buf])
  sent : ∀ {fuel s rx h}, I (fuel + 1) s rx h → ∀ hlt : s.index < s.steps.length,
    J fuel s hlt (receiverFor (request s hlt) rx)
      (h ++ [asked s hlt rx] ++ script drain (request s hlt))
  broken : ∀ {fuel s rx h} {hlt : s.index < s.steps.length} {pre op post} (io),
    I (fuel + 1) s rx h → script drain (request s hlt) = pre ++ .wire op (.ok ()) :: post →
      E (.error (wrap (s.issue hlt) (.io io)))
        (h ++ [asked s hlt rx] ++ pre ++ [.wire op (.error io)])
  silent : ∀ {fuel s hlt rx h}, J fuel s hlt rx h → s.steps[s.index].expectReply = false →
    I fuel (s.issue hlt) rx h
  heard : ∀ {fuel s hlt rx}, s.steps[s.index].expectReply = true →
    Contract (J fuel s hlt rx) (awaitReply w (s.issue hlt) (request s hlt) fuel rx) (K fuel s hlt) E
  accepted : ∀ {fuel s hlt f rx h s'}, K fuel s hlt (f, rx) h → s.steps[s.index].Accepts f →
    (s.issue hlt).onReply f = (.ok (), s') → s'.index = s.index + 1 → s'.steps = s.steps →
      I fuel s' rx (h ++ [.session (.reply s.index f (.ok ())) rx.buf])
  rejected : ∀ {fuel s hlt f rx h e}, K fuel s hlt (f, rx) h →
    (s.issue hlt).onReply f = (.error e, s.issue hlt) →
      E (.error (wrap (s.issue hlt) (.session e)))
        (h ++ [.session (.reply s.index f (.error e)) rx.buf])

/-- **The loop of a run.** The induction is on the fuel; at its head no reply is awaited. -/
theorem RunRule.contract {w : World} {drain : DrainConfig}
    {I : ℕ → Session → Receiver → List Event → Prop}
    {J : ℕ → (s : Session) → s.index < s.steps.length → Receiver → List Event → Prop}
    {K : ℕ → (s : Session) → s.index < s.steps.length → Frame × Receiver → List Event → Prop}
    {Q : Session → List Event → Prop} {E : Halt → List Event → Prop}
    (rule : RunRule w drain I J K Q E) (fuel : ℕ) {s : Session} (rx : Receiver)
    (ha : s.awaiting = false) : Contract (I fuel s rx) (run w drain fuel s rx) Q E := by
  induction fuel generalizing s rx with
  | zero => exact contract_fail fun h hi => rule.spent hi
  | succ fuel ih =>
      by_cases hle : s.steps.length ≤ s.index
      · intro h hi
        rw [run_of_le ha hle]
        exact rule.finished hi hle
      have hlt : s.index < s.steps.length := Nat.lt_of_not_le hle
      rw [run_of_lt ha hlt]
      refine Contract.bind (R := fun _ h => ∃ h', h = h' ++ [asked s hlt rx] ∧
        I (fuel + 1) s rx h') (contract_emit fun h hi => ⟨h, rfl, hi⟩) fun _ => ?_
      refine Contract.bind (R := J fuel s hlt) (contract_transmit ?_ ?_) fun rx₁ => ?_
      · rintro _ ⟨h, rfl, hi⟩
        exact rule.sent hi hlt
      · rintro _ pre op io post ⟨h, rfl, hi⟩ hscript
        exact rule.broken io hi hscript
      by_cases he : s.steps[s.index].expectReply = true
      · rw [if_neg (by rw [request_expectReply, he]; decide)]
        refine (rule.heard he).bind ?_
        rintro ⟨f, rx₂⟩
        have hi : (s.issue hlt).index = s.index := by rw [Session.issue_index, if_pos he]
        obtain ⟨e, hreply⟩ | ⟨-, hlt', hacc, hreply⟩ := (s.issue hlt).onReply_cases f
        · simp only [hreply, hi]
          refine Contract.bind (R := fun _ => E (.error (wrap (s.issue hlt) (.session e))))
            (contract_emit fun h hk => rule.rejected hk hreply) fun _ =>
              contract_fail fun h hend => hend
        · have hacc' : s.steps[s.index].Accepts f := by simpa [hi] using hacc
          obtain ⟨s', hs', hindex, ha'⟩ := Session.onReply_issue hlt hacc'
          have hsteps := (s.issue hlt).onReply_steps f
          rw [hs', Session.issue_steps] at hsteps
          simp only [hs', hi]
          exact Contract.bind (R := fun _ => I fuel s' rx₂)
            (contract_emit fun h hk => rule.accepted hk hacc' hs' hindex hsteps) fun _ =>
              ih rx₂ ha'
      · have he' : s.steps[s.index].expectReply = false := by simpa using he
        rw [if_pos (by rw [request_expectReply, he']; rfl)]
        exact (ih rx₁ (by rw [Session.issue_awaiting, he'])).pre fun h hj => rule.silent hj he'

/-! ### The loop of the handshake -/

/-- **A condition `H` that the loop of the handshake carries along**, with so much fuel left, such
a receiver and so much noise so far. From the look at the clock to the read `M` holds, then `N`
until the frames are taken out, and `L` of what they leave behind. -/
structure PulseRule (family : ProtocolFamily) (opts : SessionOptions) (wait started : ℕ)
    (H M N L : ℕ → Receiver → ℕ → List Event → Prop) (Q : TargetInfo → List Event → Prop)
    (E : Halt → List Event → Prop) : Prop where
  spent : ∀ {rx noise h}, H 0 rx noise h → E .outOfFuel h
  givesUp : ∀ {fuel rx noise h t}, H (fuel + 1) rx noise h → wait ≤ elapsed t started →
    E (.error (.noBootloader (UInt64.ofNat (wait / 1000000)) noise)) (h ++ [.now t])
  waiting : ∀ {fuel rx noise h t}, H (fuel + 1) rx noise h → elapsed t started < wait →
    M fuel rx noise (h ++ [.now t])
  /-- the clock is looked at, and there may be a pulse -/
  tick : ∀ {fuel rx noise h} (t), M fuel rx noise h → M fuel rx noise (h ++ [.now t])
  pulsed : ∀ {fuel rx noise h op}, op = .writeAll [syncByte] ∨ op = .flush →
    M fuel rx noise h → M fuel rx noise (h ++ [.wire op (.ok ())])
  broken : ∀ {fuel rx noise h op} (io), op = .writeAll [syncByte] ∨ op = .flush →
    M fuel rx noise h → E (.error (.io io)) (h ++ [.wire op (.error io)])
  read : ∀ {fuel rx noise h bytes}, M fuel rx noise h → bytes.length ≤ 256 →
    N fuel (rx.feed bytes) noise (h ++ [.read (.ok bytes)])
  fails : ∀ {fuel rx noise h} (io), M fuel rx noise h →
    E (.error (.io io)) (h ++ [.read (.error io)])
  received : ∀ {fuel rx noise h} (t), N fuel rx noise h → N fuel rx noise (h ++ [.now t])
  /-- the frames are taken out -/
  sifted : ∀ {fuel rx noise}, Contract (N fuel rx noise) (sift family opts rx noise)
    (fun out h => match out with
      | (none, rx', noise') => L fuel rx' noise' h
      | (some (.ok info), _, _) => Q info h
      | (some (.error e), _, _) => E (.error (.protocol e)) h) E
  drained : ∀ {fuel rx noise h}, L fuel rx noise h →
    H fuel rx.takeDiscarded.2 (noise + rx.discarded.length) (h ++ logged rx.discarded)

variable {family : ProtocolFamily} {opts : SessionOptions} {wait started : ℕ}
  {H M N L : ℕ → Receiver → ℕ → List Event → Prop} {Q : TargetInfo → List Event → Prop}
  {E : Halt → List Event → Prop}

/-- Frames are taken out behind a condition that log lines leave alone. -/
theorem contract_sifted {P : List Event → Prop} {K : Receiver → ℕ → List Event → Prop}
    {rx : Receiver} {noise : ℕ} (hlog : ∀ h line, P h → P (h ++ [.log line]))
    (hnone : ∀ rx' noise' h, P h → K rx' noise' h) (hinfo : ∀ info h, P h → Q info h)
    (herr : ∀ e h, P h → E (.error (.protocol e)) h) :
    Contract P (sift family opts rx noise) (fun out h => match out with
      | (none, rx', noise') => K rx' noise' h
      | (some (.ok info), _, _) => Q info h
      | (some (.error e), _, _) => E (.error (.protocol e)) h) E := by
  refine (contract_sift hlog).post ?_
  rintro ⟨_ | e | info, rx', noise'⟩ h ⟨hp, -⟩
  · exact hnone rx' noise' h hp
  · exact herr e h hp
  · exact hinfo info h hp

/-- The look at the clock while a frame is arriving. -/
theorem PulseRule.midFrame (rule : PulseRule family opts wait started H M N L Q E) {w : World}
    {fuel noise : ℕ} {rx₀ : Receiver} (rx : Receiver) (lastByte : ℤ) :
    Contract (M fuel rx₀ noise) (midFrame w rx lastByte) (fun _ => M fuel rx₀ noise) E := by
  have hclock : Contract (M fuel rx₀ noise) w.clock (fun _ => M fuel rx₀ noise) E :=
    contract_clock fun h hm => rule.tick _ hm
  rw [Driver.midFrame]
  split
  · exact hclock.bind fun _ => contract_pure fun h hm => hm
  · exact contract_pure fun h hm => hm

/-- A pulse, if one is due, between looks at the clock. -/
theorem PulseRule.pulse (rule : PulseRule family opts wait started H M N L Q E) {w : World}
    {fuel noise : ℕ} {rx : Receiver} (mid : Bool) (lastPulse : ℤ) :
    Contract (M fuel rx noise) (pulse w mid lastPulse) (fun _ => M fuel rx noise) E := by
  have hclock : Contract (M fuel rx noise) w.clock (fun _ => M fuel rx noise) E :=
    contract_clock fun h hm => rule.tick _ hm
  have hcall : ∀ {op}, op = .writeAll [syncByte] ∨ op = .flush →
      Contract (M fuel rx noise) (w.callIo op) (fun _ => M fuel rx noise) E := fun hop =>
    contract_callIo (fun h hm => rule.pulsed hop hm) fun h io hm => rule.broken io hop hm
  rw [Driver.pulse]
  split
  · exact contract_pure fun h hm => hm
  · refine hclock.bind fun t => ?_
    split
    · exact (hcall (.inl rfl)).bind fun _ => (hcall (.inr rfl)).bind fun _ =>
        hclock.bind fun _ => contract_pure fun h hm => hm
    · exact contract_pure fun h hm => hm

/-- What was read is fed, and the clock is looked at if it is anything. -/
theorem PulseRule.receive (rule : PulseRule family opts wait started H M N L Q E) {w : World}
    {fuel noise : ℕ} (rx : Receiver) (bytes : Bytes) (lastByte : ℤ) :
    Contract (N fuel (rx.feed bytes) noise) (receive w bytes rx lastByte)
      (fun received h => received.1 = rx.feed bytes ∧ N fuel (rx.feed bytes) noise h) E := by
  have hclock : Contract (N fuel (rx.feed bytes) noise) w.clock
      (fun _ => N fuel (rx.feed bytes) noise) E := contract_clock fun h hn => rule.received _ hn
  rw [Driver.receive]
  split
  · next hb => exact contract_pure fun h hn => ⟨by rw [hb, Receiver.feed, List.append_nil], hn⟩
  · exact hclock.bind fun t => contract_pure fun h hn => ⟨rfl, hn⟩

/-- **The loop of the handshake.** The induction is on the fuel. -/
theorem PulseRule.contract (rule : PulseRule family opts wait started H M N L Q E) (w : World)
    (fuel : ℕ) (rx : Receiver) (noise : ℕ) (lastPulse lastByte : ℤ) :
    Contract (H fuel rx noise)
      (waitForStatus w family opts wait started fuel rx noise lastPulse lastByte) Q E := by
  induction fuel generalizing rx noise lastPulse lastByte with
  | zero => exact contract_fail fun h hh => rule.spent hh
  | succ fuel ih =>
      rw [waitForStatus]
      refine Contract.bind (R := fun t h => ∃ h', h = h' ++ [.now t] ∧ H (fuel + 1) rx noise h')
        (contract_clock fun h hh => ⟨h, rfl, hh⟩) fun t => ?_
      split
      · next hin =>
        refine Contract.bind (R := fun _ => M fuel rx noise) ((rule.midFrame rx lastByte).pre ?_)
          fun mid => (rule.pulse mid lastPulse).bind fun lastPulse' => ?_
        · rintro _ ⟨h, rfl, hh⟩
          exact rule.waiting hh hin
        refine Contract.bind (R := fun bytes => N fuel (rx.feed bytes) noise)
          (contract_readIo (fun h bytes hlen hm => rule.read hm hlen)
            fun h io hm => rule.fails io hm) fun bytes => ?_
        refine (rule.receive rx bytes lastByte).bind ?_
        rintro ⟨rx₁, lastByte'⟩
        rintro h ⟨rfl, hn⟩
        refine Contract.bind rule.sifted ?_ h hn
        rintro ⟨_ | e | info, rx₂, noise₂⟩
        · exact (contract_logged fun h hl => rule.drained hl).bind fun _ => ih _ _ _ _
        · exact contract_fail fun h hend => hend
        · exact contract_pure fun h hend => hend
      · next hover =>
        refine contract_fail ?_
        rintro _ ⟨h, rfl, hh⟩
        exact rule.givesUp hh (Nat.le_of_not_lt hover)

/-- The handshake sets its rate, and looks at the clock before its loop. -/
theorem contract_handshake {w : World} {fuel : ℕ} {P : List Event → Prop}
    {H : ℕ → List Event → Prop}
    (hbroken : ∀ h io, P h →
      E (.error (.io io)) (h ++ [.wire (.setBaud opts.handshakeBaud) (.error io)]))
    (hstart : ∀ h started, P h →
      H started (h ++ [.wire (.setBaud opts.handshakeBaud) (.ok ())] ++ [.now started]))
    (hloop : ∀ started, Contract (H started)
      (waitForStatus w family opts wait started fuel .new 0 (started - pulseEvery) started) Q E) :
    Contract P (handshake w family opts wait fuel) Q E := by
  refine Contract.bind (R := fun _ h => ∃ h', P h' ∧
    h = h' ++ [.wire (.setBaud opts.handshakeBaud) (.ok ())]) (contract_callIo ?_ ?_) fun _ =>
      Contract.bind (R := H) (contract_clock ?_) hloop
  · exact fun h hp => ⟨h, hp, rfl⟩
  · exact fun h io hp => hbroken h io hp
  · rintro _ ⟨h, hp, rfl⟩
    exact hstart h _ hp

end Stcbsl.Driver
