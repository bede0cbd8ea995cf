import Stcbsl.Receiver
import Stcbsl.Stc89
import Stcbsl.Traced

/-!
# The Driver

The driver of `driver.rs`: the loop that takes a session's actions, hands bytes to a wire
and passes replies back. The wire and the clock are a `World` that may answer each call in
any way, depending on all that has happened before: every call may fail or succeed, a read
may return any bytes, and the clock may show anything.

## The model

* Whatever the driver does outside of itself is an `Event`: calls on the wire with their
  results, readings of the clock, pauses and lines of the log. The calls on the session are
  events, too, with the bytes that the receiver holds by then.
* The loops of the source have no bound of their own. Here they have fuel, and a run that uses
  it up ends with `Halt.outOfFuel`, which is neither success nor an error of the source. How
  much fuel is enough is the subject of `Stcbsl.Deadlines`.
* `Halt.unreachable` is the `unreachable!` of the source, an end like any other until it is
  shown that no run comes to it.

## Waiting

What the wait for a reply does is told without its loop (`Heard`): the frame stands in the bytes
read right before those that the receiver holds afterwards, behind bytes that were thrown away.
Where the wait ends without a frame, nothing but reading, logging and looking at the clock has
happened.

## Main results

* `transmit_follows` — sending a request performs a fixed script, or fails in it.
* `guardsFrom_script` — what a guard has to allow for a script to be allowed.
* `awaitReply_awaits` — what waiting for a reply reads, delivers and leaves behind.
-/

namespace Stcbsl.Driver

open Traced Resync

/-! ### The wire, the clock and the log -/

/-- An `io::Error`, as far as the driver passes it on. -/
structure IoError where
  message : String
  deriving DecidableEq, Repr

/-- The calls on a wire that answer success or failure. -/
inductive WireOp
  | setBaud (baud : UInt32)
  | writeAll (bytes : Bytes)
  | flush
  | drain
  deriving DecidableEq, Repr

/-- The calls on a log. -/
inductive LogLine
  | step (label : String) (bytes : Bytes)
  | reply (frame : Frame)
  | note (msg : String)
  | discarded (bytes : Bytes)
  deriving DecidableEq, Repr

/-- What happens in a run, in order: calls on the wire with their results, clock readings,
pauses, log lines, and calls on the session with the bytes the receiver holds then. -/
inductive Event
  | wire (op : WireOp) (result : Except IoError Unit)
  | read (result : Except IoError Bytes)
  | now (t : ℕ)
  | sleep (ms : UInt64)
  | log (line : LogLine)
  | session (e : Session.Event) (held : Bytes)

/-- The wire and the clock: how they answer, given the history of the run. A read returns at
most the 512 bytes of the driver's buffer; the clock counts nanoseconds. -/
structure World where
  answer : List Event → WireOp → Except IoError Unit
  read : List Event → Except IoError { bytes : Bytes // bytes.length ≤ 512 }
  now : List Event → ℕ

/-- `DrainMode`. -/
inductive DrainMode
  | tcDrain
  | computeWireTime
  deriving DecidableEq, Repr

/-- How the driver handles each baud switch. -/
structure DrainConfig where
  mode : DrainMode
  marginMs : Int64
  deriving DecidableEq, Repr

/-- `DrainConfig::default`. -/
def DrainConfig.default : DrainConfig := { mode := .tcDrain, marginMs := 100 }

/-- `drain.margin_ms.max(0) as u64`. -/
def DrainConfig.settle (drain : DrainConfig) : UInt64 :=
  (if drain.marginMs < 0 then 0 else drain.marginMs).toUInt64

/-- The errors of the driver. -/
inductive Error
  | io (e : IoError)
  | protocol (e : ProtocolError)
  | session (e : SessionError)
  | frame (e : FrameError)
  | timeout (label : String) (ms : UInt64)
  | noBootloader (waitedMs : UInt64) (noiseBytes : ℕ)
  | indeterminateFlash (inner : Error)
  deriving DecidableEq, Repr

/-- Why a run ends without `Ok`: it returns an error, it reaches `unreachable!`, or the fuel
that bounds its loops in this model is used up. -/
inductive Halt
  | error (e : Error)
  | unreachable
  | outOfFuel
  deriving DecidableEq, Repr

/-- `wrap`. -/
def wrap (session : Session) (e : Error) : Error :=
  if session.flashIsIndeterminate then .indeterminateFlash e else e

/-- A program of the driver. -/
abbrev Program := Prog Halt Event

/-- A call on the wire, with `.map_err(|e| wrap(session, Error::Io(e)))?`. -/
def World.call (w : World) (session : Session) (op : WireOp) : Program Unit :=
  (Prog.perform fun h => (w.answer h op, .wire op (w.answer h op))).mapError
    fun e => .error (wrap session (.io e))

/-- A read, with the same treatment of errors. -/
def World.readSome (w : World) (session : Session) : Program Bytes :=
  (Prog.perform fun h =>
    ((w.read h).map Subtype.val, .read ((w.read h).map Subtype.val))).mapError
    fun e => .error (wrap session (.io e))

/-- `Instant::now()`. -/
def World.clock (w : World) : Program ℕ := Prog.perform fun h => (.ok (w.now h), .now (w.now h))

/-- An event that neither fails nor answers. -/
def emit (e : Event) : Program Unit := Prog.perform fun _ => (.ok (), e)

/-- An emission and what comes behind it. -/
theorem emit_bind {α : Type} {e : Event} {f : Unit → Program α} {h t : List Event}
    {r : Except Halt α} (heq : (emit e >>= f) h = (r, t)) :
    ∃ t', f () (h ++ [e]) = (r, t') ∧ t = e :: t' := by
  replace heq : ((f () (h ++ [e])).1, e :: (f () (h ++ [e])).2) = (r, t) := heq
  obtain ⟨rfl, rfl⟩ := Prod.mk.inj heq
  exact ⟨_, rfl, rfl⟩

/-- A clock reading and what comes behind it. -/
theorem clock_bind {w : World} {α : Type} {f : ℕ → Program α} {h t : List Event}
    {r : Except Halt α} (heq : (w.clock >>= f) h = (r, t)) :
    ∃ t', f (w.now h) (h ++ [.now (w.now h)]) = (r, t') ∧ t = .now (w.now h) :: t' := by
  replace heq : ((f (w.now h) (h ++ [.now (w.now h)])).1,
    .now (w.now h) :: (f (w.now h) (h ++ [.now (w.now h)])).2) = (r, t) := heq
  obtain ⟨rfl, rfl⟩ := Prod.mk.inj heq
  exact ⟨_, rfl, rfl⟩

/-- A call on the log. -/
def log (line : LogLine) : Program Unit := emit (.log line)

/-- Log the bytes taken from the receiver, if there are any. -/
def logDiscarded (d : Bytes) : Program Unit :=
  if !d.isEmpty then log (.discarded d) else pure ()

/-! ### The driver of the source -/

/-- `if let Some(b) = retune_before_send`: drop the link to the send baud first. -/
def retuneBefore (w : World) (session : Session) (x : Send) (rx : Receiver) :
    Program Receiver :=
  match x.retuneBeforeSend with
  | some b => do
      w.call session (.setBaud b)
      pure .new
  | none => pure rx

/-- `if drain.mode == DrainMode::TcDrain`: block until the frame has left the wire. -/
def drainFrame (w : World) (drain : DrainConfig) (session : Session) : Program Unit :=
  if drain.mode = .tcDrain then w.call session .drain else pure ()

/-- `if settle > 0`: pause at the old rate. -/
def pause (drain : DrainConfig) : Program Unit :=
  if drain.settle > 0 then emit (.sleep drain.settle) else pure ()

/-- `if let Some(b) = retune_after_send`: drain the frame off the wire, settle, switch. -/
def retuneAfter (w : World) (drain : DrainConfig) (session : Session) (x : Send)
    (rx : Receiver) : Program Receiver :=
  match x.retuneAfterSend with
  | some b => do
      drainFrame w drain session
      pause drain
      w.call session (.setBaud b)
      log (.note ("drained, settled " ++ toString drain.settle
        ++ " ms at the old baud, switched to " ++ toString b ++ "; reading echo there"))
      pure .new
  | none => pure rx

/-- Everything `run` does on the wire for a `Send`, up to waiting for the reply. -/
def transmit (w : World) (drain : DrainConfig) (session : Session) (x : Send)
    (rx : Receiver) : Program Receiver := do
  let rx ← retuneBefore w session x rx
  log (.step x.label x.bytes)
  w.call session (.writeAll x.bytes)
  w.call session .flush
  retuneAfter w drain session x rx

/-- The inner loop of `run`: poll the receiver, and read more, until a valid frame comes out
or the deadline has passed. -/
def awaitFrame (w : World) (session : Session) (x : Send) (deadline : ℕ) :
    ℕ → Receiver → Program (Frame × Receiver)
  | 0, _ => Prog.fail .outOfFuel
  | fuel + 1, rx =>
      match rx.nextFrame with
      | (some result, rx) => do
          let (d, rx) := rx.takeDiscarded
          logDiscarded d
          match result with
          | .ok f => pure (f, rx)
          | .error e => do
              -- re-hunt rather than abort
              log (.note ("re-hunting after a bad frame: " ++ e.display))
              awaitFrame w session x deadline fuel rx
      | (none, rx) => do
          let t ← w.clock
          if t ≥ deadline then
            Prog.fail (.error (wrap session (.timeout x.label x.timeoutMs)))
          else do
            let bytes ← w.readSome session
            awaitFrame w session x deadline fuel (if bytes = [] then rx else rx.feed bytes)

/-- Wait for the reply to a request until its timeout. -/
def awaitReply (w : World) (session : Session) (x : Send) (fuel : ℕ) (rx : Receiver) :
    Program (Frame × Receiver) := do
  let t ← w.clock
  let deadline := t + x.timeoutMs.toNat * 1000000
  let (frame, rx) ← awaitFrame w session x deadline fuel rx
  let (d, rx) := rx.takeDiscarded
  logDiscarded d
  log (.reply frame)
  pure (frame, rx)

/-- `run`: a planned session, to completion. The fuel bounds the iterations of its loops. -/
def run (w : World) (drain : DrainConfig) : ℕ → Session → Receiver → Program Session
  | 0, _, _ => Prog.fail .outOfFuel
  | fuel + 1, session, rx => do
      let (action, session) := session.nextAction
      emit (.session (.action action) rx.buf)
      match action with
      | .finished => pure session
      | .awaitingReply => Prog.fail .unreachable
      | .setBaud b => do
          w.call session (.setBaud b)
          run w drain fuel session .new
      | .send x => do
          let rx ← transmit w drain session x rx
          if !x.expectReply then run w drain fuel session rx
          else do
            let (frame, rx) ← awaitReply w session x fuel rx
            let (result, session') := session.onReply frame
            emit (.session (.reply session.index frame result) rx.buf)
            match result with
            | .error e => Prog.fail (.error (wrap session' (.session e)))
            | .ok () => run w drain fuel session' rx

/-- `run` on a fresh session, with the events of the run. -/
def runFresh (w : World) (drain : DrainConfig) (fuel : ℕ) (steps : List Step) :
    Except Halt Session × List Event :=
  run w drain fuel (Session.new steps) .new []

/-! ### Reading a run -/

/-- The call on the session of an event. -/
def Event.onSession : Event → Option Session.Event
  | session e _ => some e
  | _ => none

/-- The history of the session in a run. -/
def sessionHistory (h : List Event) : List Session.Event := h.filterMap Event.onSession

/-- The bytes passed to `write_all`, whatever came of it. -/
def Event.writeCall : Event → Option Bytes
  | wire (.writeAll bytes) _ => some bytes
  | _ => none

/-- The byte strings passed to `write_all`. -/
def writeCalls (h : List Event) : List Bytes := h.filterMap Event.writeCall

/-- The bytes written with success. -/
def Event.writeOk : Event → Option Bytes
  | wire (.writeAll bytes) (.ok ()) => some bytes
  | _ => none

/-- The byte strings written with success. -/
def written (h : List Event) : List Bytes := h.filterMap Event.writeOk

/-- The bytes a read returned. -/
def Event.bytesRead : Event → Bytes
  | read (.ok bytes) => bytes
  | _ => []

/-- The read stream of a run. -/
def readBytes (h : List Event) : Bytes := h.flatMap Event.bytesRead

/-- A write with success. -/
def Event.isWrite (e : Event) : Bool := e.writeOk.isSome

/-- The rate a `set_baud` with success sets. -/
def Event.newBaud : Event → Option UInt32
  | wire (.setBaud b) (.ok ()) => some b
  | _ => none

/-- A `set_baud` with success. -/
def Event.isRetune (e : Event) : Bool := e.newBaud.isSome

/-- The request that is handed out, and the bytes the receiver holds then. -/
def Event.request : Event → Option (Send × Bytes)
  | session (.action (.send x)) held => some (x, held)
  | _ => none

/-- A request is handed out. -/
def Event.isRequest (e : Event) : Bool := e.request.isSome

/-- The last request handed out, and the bytes the receiver held then. -/
def lastRequest (h : List Event) : Option (Send × Bytes) :=
  (h.filterMap Event.request).getLast?

/-- The rate of the wire after a history, from the rate before it. -/
def baudAfter (b : UInt32) (h : List Event) : UInt32 :=
  h.foldl (fun b e => e.newBaud.getD b) b

/-- The calls on the session in two parts of a run. -/
@[simp] theorem sessionHistory_append (h h' : List Event) :
    sessionHistory (h ++ h') = sessionHistory h ++ sessionHistory h' := List.filterMap_append

/-- The strings handed to the wire in two parts of a run. -/
@[simp] theorem writeCalls_append (h h' : List Event) :
    writeCalls (h ++ h') = writeCalls h ++ writeCalls h' := List.filterMap_append

/-- The strings written with success in two parts of a run. -/
@[simp] theorem written_append (h h' : List Event) : written (h ++ h') = written h ++ written h' :=
  List.filterMap_append

/-- The bytes read in two parts of a run. -/
@[simp] theorem readBytes_append (h h' : List Event) :
    readBytes (h ++ h') = readBytes h ++ readBytes h' := List.flatMap_append

/-- The rate behind two parts of a run. -/
@[simp] theorem baudAfter_append (b : UInt32) (h h' : List Event) :
    baudAfter b (h ++ h') = baudAfter (baudAfter b h) h' := List.foldl_append

/-- Where the session is not called, no request is handed out. -/
theorem request_of_sessionHistory {t : List Event} (ht : sessionHistory t = []) :
    ∀ e ∈ t, e.request = none := by
  intro e he
  have := List.filterMap_eq_nil_iff.mp ht e he
  cases e <;> first | rfl | cases this

/-- Events that set no rate leave it as it is. -/
theorem baudAfter_of_forall {b : UInt32} {t : List Event} (ht : ∀ e ∈ t, e.newBaud = none) :
    baudAfter b t = b := by
  induction t with
  | nil => rfl
  | cons e t ih =>
      obtain ⟨he, ht⟩ := List.forall_mem_cons.mp ht
      have hsame : baudAfter b [e] = b := by simp [baudAfter, he]
      rw [← List.singleton_append, baudAfter_append, hsame, ih ht]

/-- A reading takes nothing from events of a kind it takes nothing from. -/
theorem filterMap_of_kind {α : Type} {kind : Event → Bool} {g : Event → Option α}
    (hg : ∀ e, kind e = true → g e = none) {t : List Event} (ht : ∀ e ∈ t, kind e = true) :
    t.filterMap g = [] :=
  List.filterMap_eq_nil_iff.mpr fun e he => hg e (ht e he)

/-! ### Sending a request -/

/-- How a call on the wire fails. -/
def CallFails (session : Session) (e e' : Event) (err : Halt) : Prop :=
  ∃ op io, e = .wire op (.ok ()) ∧ e' = .wire op (.error io) ∧
    err = .error (wrap session (.io io))

/-- A call on the wire is a script of one event, that may fail. -/
theorem follows_call (w : World) (session : Session) (op : WireOp) :
    Follows (CallFails session) (w.call session op) () [.wire op (.ok ())] := by
  intro h
  cases ha : w.answer h op with
  | ok u =>
      refine .inl ?_
      rw [World.call, Prog.mapError, Prog.perform, ha]
      rfl
  | error io =>
      refine .inr ⟨[], _, [], _, _, rfl, ⟨op, io, rfl, rfl, rfl⟩, ?_⟩
      rw [World.call, Prog.mapError, Prog.perform, ha]
      rfl

/-- An emission is a script of one event, that cannot fail. -/
theorem follows_emit (session : Session) (e : Event) :
    Follows (CallFails session) (emit e) () [e] := fun _ => .inl rfl

/-- The events of a retune before sending. -/
def scriptBefore (x : Send) : List Event :=
  x.retuneBeforeSend.elim [] fun b => [.wire (.setBaud b) (.ok ())]

/-- The events of writing a request out. -/
def scriptWrite (x : Send) : List Event :=
  [.log (.step x.label x.bytes), .wire (.writeAll x.bytes) (.ok ()), .wire .flush (.ok ())]

/-- The events that let a frame leave the wire. -/
def scriptDrain (drain : DrainConfig) : List Event :=
  if drain.mode = .tcDrain then [.wire .drain (.ok ())] else []

/-- The pause before the rate changes. -/
def scriptPause (drain : DrainConfig) : List Event :=
  if drain.settle > 0 then [.sleep drain.settle] else []

/-- The events between a frame and the change of the rate behind it. -/
def scriptSettle (drain : DrainConfig) : List Event := scriptDrain drain ++ scriptPause drain

/-- The events of a retune after sending. -/
def scriptAfter (drain : DrainConfig) (x : Send) : List Event :=
  x.retuneAfterSend.elim [] fun b =>
    scriptSettle drain ++ [.wire (.setBaud b) (.ok ()),
      .log (.note ("drained, settled " ++ toString drain.settle
        ++ " ms at the old baud, switched to " ++ toString b ++ "; reading echo there"))]

/-- **The script of a request**: everything that happens on the wire when all goes well. -/
def script (drain : DrainConfig) (x : Send) : List Event :=
  scriptBefore x ++ scriptWrite x ++ scriptAfter drain x

/-- The receiver the reply is read with: a new one if the rate was changed. -/
def receiverFor (x : Send) (rx : Receiver) : Receiver :=
  match x.retuneBeforeSend, x.retuneAfterSend with
  | none, none => rx
  | _, _ => .new

/-- Retuning in front of a request follows its part of the script. -/
theorem retuneBefore_follows (w : World) (session : Session) (x : Send) (rx : Receiver) :
    Follows (CallFails session) (retuneBefore w session x rx)
      (x.retuneBeforeSend.elim rx fun _ => .new) (scriptBefore x) := by
  rw [retuneBefore, scriptBefore]
  cases x.retuneBeforeSend with
  | none => exact follows_pure rx
  | some b => exact (follows_call w session (.setBaud b)).bind (follows_pure _)

/-- Retuning behind a request follows its part of the script. -/
theorem retuneAfter_follows (w : World) (drain : DrainConfig) (session : Session) (x : Send)
    (rx : Receiver) :
    Follows (CallFails session) (retuneAfter w drain session x rx)
      (x.retuneAfterSend.elim rx fun _ => .new) (scriptAfter drain x) := by
  rw [retuneAfter, scriptAfter]
  cases x.retuneAfterSend with
  | none => exact follows_pure rx
  | some b =>
      have hdrain : Follows (CallFails session) (drainFrame w drain session) ()
          (scriptDrain drain) := by
        rw [drainFrame, scriptDrain]
        split
        · exact follows_call w session .drain
        · exact follows_pure ()
      have hpause : Follows (CallFails session) (pause drain) () (scriptPause drain) := by
        rw [pause, scriptPause]
        split
        · exact follows_emit session _
        · exact follows_pure ()
      rw [Option.elim_some, Option.elim_some, scriptSettle, List.append_assoc]
      exact hdrain.bind (hpause.bind ((follows_call w session (.setBaud b)).bind
        ((follows_emit session _).bind (follows_pure _))))

/-- **Sending a request performs its script**, or fails in it. -/
theorem transmit_follows (w : World) (drain : DrainConfig) (session : Session) (x : Send)
    (rx : Receiver) :
    Follows (CallFails session) (transmit w drain session x rx) (receiverFor x rx)
      (script drain x) := by
  have hwrite : ∀ rx', Follows (CallFails session)
      (do
        log (.step x.label x.bytes)
        w.call session (.writeAll x.bytes)
        w.call session .flush
        retuneAfter w drain session x rx')
      (x.retuneAfterSend.elim rx' fun _ => .new) (scriptWrite x ++ scriptAfter drain x) :=
    fun rx' => (follows_emit session _).bind ((follows_call w session _).bind
      ((follows_call w session _).bind (retuneAfter_follows w drain session x rx')))
  have hrx : receiverFor x rx =
      x.retuneAfterSend.elim (x.retuneBeforeSend.elim rx fun _ => .new) fun _ => .new := by
    rw [receiverFor]
    cases x.retuneBeforeSend <;> cases x.retuneAfterSend <;> rfl
  rw [hrx, script, List.append_assoc]
  exact (retuneBefore_follows w session x rx).bind (hwrite _)

/-- An event that neither writes, nor reads, nor calls the session. -/
def Event.idle : Event → Bool
  | wire (.writeAll _) _ => false
  | read _ => false
  | session _ _ => false
  | _ => true

/-- Only idle events in `t`. -/
def Idle (t : List Event) : Prop := ∀ e ∈ t, e.idle = true

/-- Two parts of a run are idle together where each of them is. -/
theorem idle_append {t t' : List Event} : Idle (t ++ t') ↔ Idle t ∧ Idle t' :=
  List.forall_mem_append

/-- A part of a run is idle where its first event and the rest are. -/
theorem idle_cons {e : Event} {t : List Event} : Idle (e :: t) ↔ e.idle = true ∧ Idle t :=
  List.forall_mem_cons

/-- Nothing at all is idle. -/
theorem idle_nil : Idle [] := fun _ he => by cases he

namespace Idle

variable {t : List Event}

/-- An idle part of a run calls no session. -/
theorem sessionHistory (h : Idle t) : sessionHistory t = [] := by
  refine filterMap_of_kind (fun e he => ?_) h
  cases e <;> first | rfl | cases he

/-- An idle part of a run hands nothing to the wire. -/
theorem writeCalls (h : Idle t) : writeCalls t = [] := by
  refine filterMap_of_kind (fun e he => ?_) h
  match e with
  | .wire (.writeAll _) _ => cases he
  | .wire (.setBaud _) _ | .wire .flush _ | .wire .drain _ => rfl
  | .now _ | .sleep _ | .log _ => rfl
  | .read _ | .session _ _ => cases he

/-- An idle part of a run has no write in it. -/
theorem isWrite (h : Idle t) : ∀ e ∈ t, e.isWrite = false := by
  intro e he
  have := h e he
  match e with
  | .wire (.writeAll _) _ => cases this
  | .wire (.setBaud _) _ | .wire .flush _ | .wire .drain _ => rfl
  | .now _ | .sleep _ | .log _ => rfl
  | .read _ | .session _ _ => cases this

/-- An idle part of a run writes nothing. -/
theorem written (h : Idle t) : written t = [] :=
  List.filterMap_eq_nil_iff.mpr fun e he => by simpa [Event.isWrite] using h.isWrite e he

/-- An idle part of a run reads nothing. -/
theorem readBytes (h : Idle t) : readBytes t = [] := by
  refine List.flatMap_eq_nil_iff.mpr fun e he => ?_
  have := h e he
  cases e <;> first | rfl | cases this

end Idle

/-- **The one write of a script**: everything around it is idle. -/
theorem script_eq (drain : DrainConfig) (x : Send) :
    script drain x = (scriptBefore x ++ [.log (.step x.label x.bytes)]) ++
      .wire (.writeAll x.bytes) (.ok ()) :: (.wire .flush (.ok ()) :: scriptAfter drain x) := by
  simp [script, scriptWrite]

/-- Retuning in front of a request is idle. -/
theorem idle_scriptBefore (x : Send) : Idle (scriptBefore x) := by
  rw [scriptBefore]
  cases x.retuneBeforeSend with
  | none => exact idle_nil
  | some b => exact idle_cons.mpr ⟨rfl, idle_nil⟩

/-- The pause at the old rate is idle. -/
theorem idle_scriptPause (drain : DrainConfig) : Idle (scriptPause drain) := by
  rw [scriptPause]
  split
  · exact idle_cons.mpr ⟨rfl, idle_nil⟩
  · exact idle_nil

/-- Draining and settling at the old rate are idle. -/
theorem idle_scriptSettle (drain : DrainConfig) : Idle (scriptSettle drain) := by
  refine idle_append.mpr ⟨?_, idle_scriptPause drain⟩
  rw [scriptDrain]
  split
  · exact idle_cons.mpr ⟨rfl, idle_nil⟩
  · exact idle_nil

/-- Retuning behind a request is idle. -/
theorem idle_scriptAfter (drain : DrainConfig) (x : Send) : Idle (scriptAfter drain x) := by
  rw [scriptAfter]
  cases x.retuneAfterSend with
  | none => exact idle_nil
  | some b =>
      exact idle_append.mpr ⟨idle_scriptSettle drain,
        idle_cons.mpr ⟨rfl, idle_cons.mpr ⟨rfl, idle_nil⟩⟩⟩

/-- The script before the write, and behind it. -/
theorem idle_script (drain : DrainConfig) (x : Send) :
    Idle (scriptBefore x ++ [.log (.step x.label x.bytes)]) ∧
      Idle (.wire .flush (.ok ()) :: scriptAfter drain x) :=
  ⟨idle_append.mpr ⟨idle_scriptBefore x, idle_cons.mpr ⟨rfl, idle_nil⟩⟩,
    idle_cons.mpr ⟨rfl, idle_scriptAfter drain x⟩⟩

/-- A script makes no call on the session, reads nothing, and writes the request. -/
theorem script_readings (drain : DrainConfig) (x : Send) :
    sessionHistory (script drain x) = [] ∧ readBytes (script drain x) = [] ∧
      writeCalls (script drain x) = [x.bytes] ∧ written (script drain x) = [x.bytes] := by
  obtain ⟨hb, ha⟩ := idle_script drain x
  rw [script_eq, List.append_cons]
  refine ⟨?_, ?_, ?_, ?_⟩
  · rw [sessionHistory_append, sessionHistory_append, hb.sessionHistory, ha.sessionHistory]
    rfl
  · rw [readBytes_append, readBytes_append, hb.readBytes, ha.readBytes]
    rfl
  · rw [writeCalls_append, writeCalls_append, hb.writeCalls, ha.writeCalls]
    rfl
  · rw [written_append, written_append, hb.written, ha.written]
    rfl

/-- **The guards of a script.** Log lines, pauses, `flush` and `drain` being harmless, what
matters is the write, and the switches of the rate before and after it. -/
theorem guardsFrom_script {φ : List Event → Event → Prop} {drain : DrainConfig} {x : Send}
    {h : List Event} (hlog : ∀ h line, φ h (.log line)) (hsleep : ∀ h ms, φ h (.sleep ms))
    (hflush : ∀ h, φ h (.wire .flush (.ok ()))) (hdrain : ∀ h, φ h (.wire .drain (.ok ())))
    (hbefore : ∀ b, x.retuneBeforeSend = some b → φ h (.wire (.setBaud b) (.ok ())))
    (hwrite : φ (h ++ (scriptBefore x ++ [.log (.step x.label x.bytes)]))
      (.wire (.writeAll x.bytes) (.ok ())))
    (hafter : ∀ b, x.retuneAfterSend = some b →
      φ (h ++ (scriptBefore x ++ scriptWrite x ++ scriptSettle drain))
        (.wire (.setBaud b) (.ok ()))) :
    GuardsFrom φ h (script drain x) := by
  have hsettle : ∀ h', GuardsFrom φ h' (scriptSettle drain) := by
    intro h'
    refine guardsFrom_append.mpr ⟨?_, ?_⟩
    · rw [scriptDrain]
      split
      · exact guardsFrom_cons.mpr ⟨hdrain _, guardsFrom_nil _⟩
      · exact guardsFrom_nil _
    · rw [scriptPause]
      split
      · exact guardsFrom_cons.mpr ⟨hsleep _ _, guardsFrom_nil _⟩
      · exact guardsFrom_nil _
  rw [script]
  refine guardsFrom_append.mpr ⟨guardsFrom_append.mpr ⟨?_, ?_⟩, ?_⟩
  · rw [scriptBefore]
    cases hb : x.retuneBeforeSend with
    | none => exact guardsFrom_nil _
    | some b => exact guardsFrom_cons.mpr ⟨hbefore b hb, guardsFrom_nil _⟩
  · refine guardsFrom_cons.mpr ⟨hlog _ _, guardsFrom_cons.mpr ⟨?_,
      guardsFrom_cons.mpr ⟨hflush _, guardsFrom_nil _⟩⟩⟩
    rwa [← List.append_assoc] at hwrite
  · rw [scriptAfter]
    cases ha : x.retuneAfterSend with
    | none => exact guardsFrom_nil _
    | some b =>
        refine guardsFrom_append.mpr ⟨hsettle _, guardsFrom_cons.mpr ⟨?_,
          guardsFrom_cons.mpr ⟨hlog _ _, guardsFrom_nil _⟩⟩⟩
        rw [List.append_assoc]
        exact hafter b ha

/-! ### Waiting for a frame -/

/-- The events of waiting: clock readings, reads and log lines. -/
def Event.listening : Event → Bool
  | read _ => true
  | now _ => true
  | log _ => true
  | _ => false

/-- Nothing but waiting happens in `t`. -/
def Quiet (t : List Event) : Prop := ∀ e ∈ t, e.listening = true

/-- Two parts of a run are quiet together where each of them is. -/
theorem Quiet.append {t t' : List Event} (h : Quiet t) (h' : Quiet t') : Quiet (t ++ t') := by
  intro e he
  rcases List.mem_append.mp he with he | he
  · exact h e he
  · exact h' e he

/-- Nothing at all is quiet. -/
theorem quiet_nil : Quiet [] := fun _ he => by cases he

/-- A single event of listening is quiet. -/
theorem quiet_single {e : Event} (h : e.listening = true) : Quiet [e] := by
  intro e' he
  rwa [List.mem_singleton.mp he]

/-- A quiet part of a run calls no session. -/
theorem Quiet.sessionHistory {t : List Event} (h : Quiet t) : sessionHistory t = [] := by
  refine filterMap_of_kind (fun e he => ?_) h
  cases e <;> first | rfl | cases he

/-- A quiet part of a run hands nothing to the wire. -/
theorem Quiet.writeCalls {t : List Event} (h : Quiet t) : writeCalls t = [] := by
  refine filterMap_of_kind (fun e he => ?_) h
  cases e <;> first | rfl | cases he

/-- A quiet part of a run has no write in it. -/
theorem Quiet.isWrite {t : List Event} (h : Quiet t) : ∀ e ∈ t, e.isWrite = false := by
  intro e he
  have := h e he
  cases e <;> first | rfl | cases this

/-- A quiet part of a run leaves the rate as it is. -/
theorem Quiet.newBaud {t : List Event} (h : Quiet t) : ∀ e ∈ t, e.newBaud = none := by
  intro e he
  have := h e he
  cases e <;> first | rfl | cases this

/-- An error of the driver before it is wrapped. -/
def Error.Plain (e : Error) : Prop := ∀ inner, e ≠ .indeterminateFlash inner

/-- While a reply is awaited, a run stops for want of fuel, or with a wrapped error. -/
def StopsAwaiting (session : Session) (halt : Halt) : Prop :=
  halt = .outOfFuel ∨ ∃ e : Error, e.Plain ∧ halt = .error (wrap session e)

/-- **What is heard**: reading with `rx`, the events `t` bring the frame `f`, which stands in
the bytes read right before those that `rx'` still holds, behind bytes that are passed
over. -/
structure Heard (rx : Receiver) (t : List Event) (f : Frame) (rx' : Receiver) : Prop where
  quiet : Quiet t
  lenPlausible : f.LenPlausible
  passes : Passes frames (rx.buf ++ readBytes t) (f.encode ++ rx'.buf)

/-- Where the frame stands, and that no frame begins before it. -/
theorem Heard.located {rx rx' : Receiver} {t : List Event} {f : Frame} (h : Heard rx t f rx') :
    ∃ d, rx.buf ++ readBytes t = d ++ f.encode ++ rx'.buf ∧
      ∀ i < d.length, ∀ g : Frame, g.LenPlausible →
        ¬ g.encode <+: (rx.buf ++ readBytes t).drop i := by
  obtain ⟨d, hd⟩ := h.passes.suffix
  refine ⟨d, by rw [hd, List.append_assoc], ?_⟩
  intro i hi g hg
  refine Receiver.not_encode_of_passes h.passes ?_ hg
  simp only [hd, List.length_append]
  omega

/-- Events that read nothing, behind a frame. -/
theorem Heard.append {rx rx' : Receiver} {t t' : List Event} {f : Frame} (h : Heard rx t f rx')
    (hq : Quiet t') (hr : readBytes t' = []) : Heard rx (t ++ t') f rx' where
  quiet := h.quiet.append hq
  lenPlausible := h.lenPlausible
  passes := by simpa [hr] using h.passes

/-- Events in front, after which the reading goes on with what is left in the buffer. -/
theorem Heard.prepend {rx rx₁ rx' : Receiver} {t t' : List Event} {f : Frame}
    (h : Heard rx₁ t f rx') (hq : Quiet t')
    (hbuf : Passes frames (rx.buf ++ readBytes t') rx₁.buf) : Heard rx (t' ++ t) f rx' where
  quiet := hq.append h.quiet
  lenPlausible := h.lenPlausible
  passes := by
    rw [readBytes_append, ← List.append_assoc]
    exact (hbuf.append _).trans h.passes

/-- Logging discarded bytes reads nothing. -/
theorem logDiscarded_run (d : Bytes) (h : List Event) :
    ∃ t, logDiscarded d h = (.ok (), t) ∧ Quiet t ∧ readBytes t = [] := by
  rw [logDiscarded]
  split
  · exact ⟨_, rfl, quiet_single rfl, rfl⟩
  · exact ⟨_, rfl, quiet_nil, rfl⟩

/-- The result of waiting for a frame. -/
def AwaitEnds (session : Session) (rx : Receiver) (t : List Event) :
    Except Halt (Frame × Receiver) → Prop
  | .ok (f, rx') => Heard rx t f rx'
  | .error halt => Quiet t ∧ StopsAwaiting session halt

/-- The end of a wait behind a quiet beginning that reads into the buffer. -/
theorem AwaitEnds.prepend {session : Session} {rx rx₁ : Receiver} {t t' : List Event}
    {r : Except Halt (Frame × Receiver)} (h : AwaitEnds session rx₁ t r) (hq : Quiet t')
    (hbuf : Passes frames (rx.buf ++ readBytes t') rx₁.buf) :
    AwaitEnds session rx (t' ++ t) r := by
  cases r with
  | ok p => exact Heard.prepend h hq hbuf
  | error halt => exact ⟨hq.append h.1, h.2⟩

/-- Run behind the history `h` with `rx`, the program waits for a frame. -/
def Awaits (session : Session) (rx : Receiver) (x : Program (Frame × Receiver))
    (h : List Event) : Prop :=
  AwaitEnds session rx (x h).2 (x h).1

/-- A quiet beginning, that reads into the buffer what the rest goes on with. -/
theorem Awaits.bind {α : Type} {session : Session} {rx : Receiver} (rx₁ : Receiver)
    {h t : List Event} {x : Program α} {f : α → Program (Frame × Receiver)} {a : α}
    (hx : x h = (.ok a, t))
    (hq : Quiet t) (hbuf : Passes frames (rx.buf ++ readBytes t) rx₁.buf)
    (hf : Awaits session rx₁ (f a) (h ++ t)) : Awaits session rx (x >>= f) h := by
  rw [Awaits, Prog.bind_of_ok hx rfl]
  exact hf.prepend hq hbuf

/-- An error stops the wait. -/
theorem awaits_error {session : Session} {rx : Receiver} {h t : List Event} {e : Error}
    {x : Program (Frame × Receiver)} (hx : x h = (.error (.error (wrap session e)), t))
    (hq : Quiet t) (he : e.Plain) : Awaits session rx x h := by
  rw [Awaits, hx]
  exact ⟨hq, .inr ⟨e, he, rfl⟩⟩

/-- A read that fails stops the wait; one that succeeds adds its bytes. -/
theorem readSome_run (w : World) (session : Session) (h : List Event) :
    (∃ io, w.readSome session h =
      (.error (.error (wrap session (.io io))), [.read (.error io)])) ∨
    ∃ bytes, w.readSome session h = (.ok bytes, [.read (.ok bytes)]) := by
  cases hr : w.read h with
  | error io =>
      refine .inl ⟨io, ?_⟩
      rw [World.readSome, Prog.mapError, Prog.perform, hr]
      rfl
  | ok bytes =>
      refine .inr ⟨bytes, ?_⟩
      rw [World.readSome, Prog.mapError, Prog.perform, hr]
      rfl

/-- **Waiting for a frame**: whatever the wire and the clock do, the wait is quiet, and ends
with a frame that was heard, with a wrapped error, or for want of fuel. -/
theorem awaitFrame_awaits (w : World) (session : Session) (x : Send) (deadline fuel : ℕ)
    (rx : Receiver) (h : List Event) :
    Awaits session rx (awaitFrame w session x deadline fuel rx) h := by
  induction fuel generalizing rx h with
  | zero => exact ⟨quiet_nil, .inl rfl⟩
  | succ fuel ih =>
      match hn : rx.nextFrame with
      | (some (.ok f), rx₁) =>
          obtain ⟨hplaus, hpass⟩ := Receiver.nextFrame_ok hn
          obtain ⟨t, hlog, hq, hread⟩ := logDiscarded_run rx₁.discarded h
          rw [awaitFrame, hn]
          refine Awaits.bind rx hlog hq (by rw [hread, List.append_nil]; exact .refl _ _) ?_
          exact ⟨quiet_nil, hplaus, by simpa [readBytes] using hpass⟩
      | (some (.error e), rx₁) =>
          have hpass := Receiver.nextFrame_passes hn (by simp)
          obtain ⟨t, hlog, hq, hread⟩ := logDiscarded_run rx₁.discarded h
          rw [awaitFrame, hn]
          refine Awaits.bind rx₁ hlog hq (by rw [hread, List.append_nil]; exact hpass) ?_
          exact Awaits.bind { rx₁ with discarded := [] } rfl (quiet_single rfl)
            (by simpa [readBytes, Event.bytesRead] using .refl _ _) (ih _ _)
      | (none, rx₁) =>
          have hpass := Receiver.nextFrame_passes hn (by simp)
          rw [awaitFrame, hn]
          refine Awaits.bind rx₁ (a := w.now h) rfl (quiet_single rfl)
            (by simpa [readBytes, Event.bytesRead] using hpass) ?_
          by_cases hlate : w.now h ≥ deadline
          · rw [if_pos hlate]
            exact awaits_error rfl quiet_nil (fun _ he => by cases he)
          · rw [if_neg hlate]
            obtain ⟨io, hio⟩ | ⟨bytes, hbytes⟩ := readSome_run w session (h ++ [.now (w.now h)])
            · exact awaits_error (Prog.bind_of_error hio) (quiet_single rfl)
                (fun _ he => by cases he)
            · refine Awaits.bind _ hbytes (quiet_single rfl) ?_ (ih _ _)
              split_ifs with hb
              · simpa [readBytes, Event.bytesRead, hb] using .refl _ _
              · simpa [readBytes, Event.bytesRead, Receiver.feed] using .refl _ _

/-- The frame heard is logged, and the bytes in front of it. -/
theorem logReply_run (f : Frame) (rx : Receiver) (h : List Event) :
    ∃ t, (do
        logDiscarded rx.discarded
        log (.reply f)
        pure (f, { rx with discarded := [] }) : Program (Frame × Receiver)) h =
      (.ok (f, { rx with discarded := [] }), t) ∧ Quiet t ∧ readBytes t = [] := by
  obtain ⟨t, hlog, hq, hread⟩ := logDiscarded_run rx.discarded h
  refine ⟨t ++ [.log (.reply f)], Prog.bind_of_ok hlog rfl, hq.append (quiet_single rfl), ?_⟩
  rw [readBytes_append, hread]
  rfl

/-- **Waiting for the reply to a request.** -/
theorem awaitReply_awaits (w : World) (session : Session) (x : Send) (fuel : ℕ)
    (rx : Receiver) (h : List Event) : Awaits session rx (awaitReply w session x fuel rx) h := by
  refine Awaits.bind rx (a := w.now h) rfl (quiet_single rfl)
    (by simpa [readBytes, Event.bytesRead] using .refl _ _) ?_
  have hframe := awaitFrame_awaits w session x (w.now h + x.timeoutMs.toNat * 1000000) fuel rx
    (h ++ [.now (w.now h)])
  match hr : awaitFrame w session x (w.now h + x.timeoutMs.toNat * 1000000) fuel rx
      (h ++ [.now (w.now h)]) with
  | (.error halt, t) =>
      rw [Awaits, hr] at hframe
      rw [Awaits, Prog.bind_of_error hr]
      exact hframe
  | (.ok (f, rx'), t) =>
      rw [Awaits, hr] at hframe
      obtain ⟨t', hlog, hq, hread⟩ := logReply_run f rx' (h ++ [.now (w.now h)] ++ t)
      rw [Awaits, Prog.bind_of_ok hr hlog]
      exact Heard.append ⟨hframe.quiet, hframe.lenPlausible, hframe.passes⟩ hq hread

end Stcbsl.Driver
