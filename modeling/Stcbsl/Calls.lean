import Stcbsl.Contract
import Stcbsl.Handshake

/-!
# The Calls of the Driver

The contracts of the calls a driver's program is made of, and the driver behind a history: a
run that does not start the program is a run against the world as it is by then.

## Contracts of the calls

A call on the wire adds one event, and may fail; a read adds one event with at most as many
bytes as the buffer holds, 256 of them in the handshake and 512 in a run; a look at the clock
adds its reading and cannot fail. Nothing is assumed about which of these happens, so that the
condition before a call has to carry over to each of them.

Lines of the log are emitted by most parts of the driver, and most conditions do not care.
`contract_of_emits_isLog` carries such a condition through a program that only logs, whatever
it computes on the way.

## The driver behind a history

A session runs after its handshake on the same port, so its run begins behind a history. The
receiver and the session are fresh by then, and the world is not. `World.after` is the world as
it is behind a history, and `after_run` turns the second half of a session into a run from the
start, so that every theorem about runs applies to it.

## Main results

* `contract_callIo`, `contract_readSome`, `contract_clock` — the calls, with their failures.
* `contract_sift` — what the inner loop of the handshake does, and that it only logs.
* `after_run` — a run behind a history.
-/

namespace Stcbsl.Driver

open Traced Resync

/-! ### Contracts of the calls -/

section Calls

variable {P : List Event → Prop} {E : Halt → List Event → Prop}

/-- An emission adds its event, and nothing can go wrong with it. -/
theorem contract_emit {e : Event} {Q : Unit → List Event → Prop}
    (hP : ∀ h, P h → Q () (h ++ [e])) : Contract P (emit e) Q E := contract_perform hP

/-- A look at the clock adds the reading it returns. -/
theorem contract_clock {w : World} {Q : ℕ → List Event → Prop}
    (hP : ∀ h, P h → Q (w.now h) (h ++ [.now (w.now h)])) : Contract P w.clock Q E :=
  contract_perform hP

/-- A call on the wire: it succeeds or fails. -/
theorem contract_callIo {w : World} {op : WireOp} {Q : Unit → List Event → Prop}
    (hok : ∀ h, P h → Q () (h ++ [.wire op (.ok ())]))
    (herr : ∀ h io, P h → E (.error (.io io)) (h ++ [.wire op (.error io)])) :
    Contract P (w.callIo op) Q E := by
  intro h hp
  cases ha : w.answer h op with
  | ok u =>
      rw [World.callIo, Prog.mapError, Prog.perform, ha]
      exact hok h hp
  | error io =>
      rw [World.callIo, Prog.mapError, Prog.perform, ha]
      exact herr h io hp

/-- A read of the handshake: at most 256 bytes, or a failure. -/
theorem contract_readIo {w : World} {Q : Bytes → List Event → Prop}
    (hok : ∀ h bytes, bytes.length ≤ 256 → P h → Q bytes (h ++ [.read (.ok bytes)]))
    (herr : ∀ h io, P h → E (.error (.io io)) (h ++ [.read (.error io)])) :
    Contract P w.readIo Q E := by
  intro h hp
  cases hr : w.read h with
  | ok b =>
      rw [World.readIo, Prog.mapError, Prog.perform, hr]
      exact hok h _ (List.length_take_le _ _) hp
  | error io =>
      rw [World.readIo, Prog.mapError, Prog.perform, hr]
      exact herr h io hp

/-- A read of a run: at most 512 bytes, or a failure. -/
theorem contract_readSome {w : World} {session : Session} {Q : Bytes → List Event → Prop}
    (hok : ∀ h bytes, bytes.length ≤ 512 → P h → Q bytes (h ++ [.read (.ok bytes)]))
    (herr : ∀ h io, P h → E (.error (wrap session (.io io))) (h ++ [.read (.error io)])) :
    Contract P (w.readSome session) Q E := by
  intro h hp
  cases hr : w.read h with
  | ok b =>
      rw [World.readSome, Prog.mapError, Prog.perform, hr]
      exact hok h _ b.property hp
  | error io =>
      rw [World.readSome, Prog.mapError, Prog.perform, hr]
      exact herr h io hp

/-! ### Log lines -/

/-- A log line. -/
def Event.isLog : Event → Bool
  | log _ => true
  | _ => false

/-- A log line is an event of the log. -/
theorem emits_log (line : LogLine) : Emits Event.isLog (log line) := emits_perform fun _ => rfl

/-- The line about discarded bytes, if there is one, is an event of the log. -/
theorem emits_logDiscarded (d : Bytes) : Emits Event.isLog (logDiscarded d) := by
  rw [logDiscarded]
  split
  · exact emits_log _
  · exact emits_pure ()

/-- The inner loop of the handshake only logs. -/
theorem emits_sift (family : ProtocolFamily) (opts : SessionOptions) (rx : Receiver)
    (noise : ℕ) : Emits Event.isLog (sift family opts rx noise) := by
  fun_induction sift family opts rx noise with
  | case1 => exact emits_pure _
  | case2 rx noise result rx' hn hlt d ih =>
      refine (emits_logDiscarded d).bind fun _ => ?_
      cases result with
      | error e => exact (emits_log _).bind fun _ => ih
      | ok frame =>
          by_cases hstatus : family.isStatusFrame frame = true
          · simp only [if_pos hstatus]
            exact (emits_log _).bind fun _ => emits_pure _
          · simp only [if_neg hstatus]
            exact (emits_log _).bind fun _ => ih

/-- A program that only logs carries a condition that log lines leave alone. -/
theorem contract_of_emits_isLog {α : Type} {x : Program α} (hx : Emits Event.isLog x)
    (hP : ∀ h line, P h → P (h ++ [.log line])) : Contract P x (fun _ => P) fun _ => P := by
  refine hx.contract fun h e hp he => ?_
  cases e with
  | log line => exact hP h line hp
  | _ => cases he

/-- Logging discarded bytes, behind a condition that log lines leave alone. -/
theorem contract_logDiscarded {d : Bytes} (hP : ∀ h line, P h → P (h ++ [.log line])) :
    Contract P (logDiscarded d) (fun _ => P) E := by
  intro h hp
  obtain ⟨t, hlog, -, -⟩ := logDiscarded_run d h
  have hkept := (contract_of_emits_isLog (emits_logDiscarded d) hP).ends hp hlog
  rw [hlog]
  exact hkept

/-- What the inner loop of the handshake makes of the receiver and of the count of noise. -/
def SiftsOut (family : ProtocolFamily) (opts : SessionOptions) (rx : Receiver) (noise : ℕ)
    (out : Option (Except ProtocolError TargetInfo) × Receiver × ℕ) : Prop :=
  ∃ its, Reads frames rx.buf its out.2.1.buf ∧
    out.2.2 + out.2.1.discarded.length =
      noise + rx.discarded.length + (its.flatMap Item.discarded).length ∧
    SiftsTo family opts its out.2.1.buf out.1

/-- **The inner loop of the handshake**, behind a condition that log lines leave alone. -/
theorem contract_sift {family : ProtocolFamily} {opts : SessionOptions} {rx : Receiver}
    {noise : ℕ} (hP : ∀ h line, P h → P (h ++ [.log line])) :
    Contract P (sift family opts rx noise)
      (fun out h => P h ∧ SiftsOut family opts rx noise out) E := by
  intro h hp
  obtain ⟨found, rx', noise', t, its, hrun, -, hreads, hnoise, hend⟩ :=
    sift_run family opts rx noise h
  have hkept :=
    (contract_of_emits_isLog (emits_sift family opts rx noise) hP).ends hp hrun
  rw [hrun]
  exact ⟨hkept, its, hreads, hnoise, hend⟩

end Calls

/-! ### The driver behind a history -/

/-- The world as it is behind the history `h₀`. -/
def World.after (w : World) (h₀ : List Event) : World where
  answer h op := w.answer (h₀ ++ h) op
  read h := w.read (h₀ ++ h)
  now h := w.now (h₀ ++ h)

variable (w : World) (h₀ : List Event)

/-- A call on the wire behind a history is one on the world as it is by then. -/
theorem after_call (session : Session) (op : WireOp) :
    Prog.after h₀ (w.call session op) = (w.after h₀).call session op := rfl

/-- A read behind a history is one from the world as it is by then. -/
theorem after_readSome (session : Session) :
    Prog.after h₀ (w.readSome session) = (w.after h₀).readSome session := rfl

/-- A look at the clock behind a history is one at the clock as it is by then. -/
theorem after_clock : Prog.after h₀ w.clock = (w.after h₀).clock := rfl

/-- An emission is the same behind every history. -/
theorem after_emit (e : Event) : Prog.after h₀ (emit e) = emit e := rfl

/-- The line about discarded bytes is the same behind every history. -/
theorem after_logDiscarded (d : Bytes) : Prog.after h₀ (logDiscarded d) = logDiscarded d := by
  rw [logDiscarded]
  split <;> rfl

/-- Retuning in front of a request, behind a history. -/
theorem after_retuneBefore (session : Session) (x : Send) (rx : Receiver) :
    Prog.after h₀ (retuneBefore w session x rx) = retuneBefore (w.after h₀) session x rx := by
  rw [retuneBefore, retuneBefore]
  cases x.retuneBeforeSend with
  | none => rfl
  | some b => exact Prog.after_bind h₀ _ _

/-- Retuning behind a request, behind a history. -/
theorem after_retuneAfter (drain : DrainConfig) (session : Session) (x : Send)
    (rx : Receiver) :
    Prog.after h₀ (retuneAfter w drain session x rx) =
      retuneAfter (w.after h₀) drain session x rx := by
  have hdrain : Prog.after h₀ (drainFrame w drain session) =
      drainFrame (w.after h₀) drain session := by
    rw [drainFrame, drainFrame]
    split <;> rfl
  have hpause : Prog.after h₀ (pause drain) = pause drain := by
    rw [pause]
    split <;> rfl
  rw [retuneAfter, retuneAfter]
  cases x.retuneAfterSend with
  | none => rfl
  | some b =>
      simp only [Prog.after_bind, hdrain, hpause, after_call, log, after_emit, Prog.after_pure]

/-- Sending a request, behind a history. -/
theorem after_transmit (drain : DrainConfig) (session : Session) (x : Send) (rx : Receiver) :
    Prog.after h₀ (transmit w drain session x rx) =
      transmit (w.after h₀) drain session x rx := by
  simp only [transmit, Prog.after_bind, after_retuneBefore, after_call, log, after_emit,
    after_retuneAfter]

/-- Waiting for a frame, behind a history. The induction is on the fuel. -/
theorem after_awaitFrame (session : Session) (x : Send) (deadline fuel : ℕ) (rx : Receiver) :
    Prog.after h₀ (awaitFrame w session x deadline fuel rx) =
      awaitFrame (w.after h₀) session x deadline fuel rx := by
  induction fuel generalizing rx with
  | zero => rfl
  | succ fuel ih =>
      rw [awaitFrame, awaitFrame]
      rcases rx.nextFrame with ⟨_ | result, rx₁⟩
      · simp only [Prog.after_bind, after_clock]
        congr 1
        funext t
        split
        · rfl
        · simp only [Prog.after_bind, after_readSome, ih]
      · cases result with
        | ok f => simp only [Prog.after_bind, after_logDiscarded, Prog.after_pure]
        | error e => simp only [Prog.after_bind, after_logDiscarded, log, after_emit, ih]

/-- Waiting for a reply, behind a history. -/
theorem after_awaitReply (session : Session) (x : Send) (fuel : ℕ) (rx : Receiver) :
    Prog.after h₀ (awaitReply w session x fuel rx) =
      awaitReply (w.after h₀) session x fuel rx := by
  simp only [awaitReply, Prog.after_bind, after_clock, after_awaitFrame, after_logDiscarded, log,
    after_emit, Prog.after_pure]

/-- **A run behind a history** is a run against the world as it is by then. -/
theorem after_run (drain : DrainConfig) (fuel : ℕ) (session : Session) (rx : Receiver) :
    Prog.after h₀ (run w drain fuel session rx) = run (w.after h₀) drain fuel session rx := by
  induction fuel generalizing session rx with
  | zero => rfl
  | succ fuel ih =>
      rw [run, run]
      rcases session.nextAction with ⟨x | b | _ | _, session'⟩
      · simp only [Prog.after_bind, after_emit, after_transmit]
        congr 1
        funext _
        congr 1
        funext rx'
        split
        · exact ih session' rx'
        · simp only [Prog.after_bind, after_awaitReply, after_emit]
          congr 1
          funext p
          congr 1
          funext _
          rcases (session'.onReply p.1).1 with e | _
          · rfl
          · exact ih _ _
      · simp only [Prog.after_bind, after_emit, after_call, ih]
      · rfl
      · rfl

end Stcbsl.Driver
