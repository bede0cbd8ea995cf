import Mathlib.Data.List.Forall2
import Stcbsl.Frame

/-!
# The Session State Machine

The session of `session.rs`: a list of steps computed up front, and a cursor that hands out
one request at a time, waits for its reply where the step expects one, and checks that
reply against the step's expectation.

A caller may call `nextAction` and `onReply` in any order and with any frames. `Tracks` says
what such a caller has seen when the session is in a given state: the requests handed out
are the first steps of the list, in order and unchanged, and the replies accepted are one
for each step behind the cursor that expects a reply, each meeting its step's expectation.

## The model

A session that awaits the reply to no step cannot be built: `Session` carries as a field that the
cursor is within the list while a reply is awaited. The source has no such field and indexes
without a check; that it computes the same is shown in `Stcbsl.SessionSafety`.

## One step, then all

`nextAction` and `onReply` are taken apart once, into what each does in each kind of state.
`Tracks` is preserved by either (`Tracks.nextAction`, `Tracks.onReply`) and by every sequence of
them (`tracks_runCalls`), so that what is proved from `Tracks` holds in every reachable state.

## Main results

* `checkReply_eq_ok_iff` — the replies a step accepts.
* `Tracks.nextAction`, `Tracks.onReply` — one call preserves the session invariant.
* `tracks_runCalls` — every sequence of calls does.
* `Tracks.flashIsIndeterminate_iff` — what the abort report says about the history.
-/

namespace Stcbsl

/-! ### Steps -/

/-- Session phase. -/
inductive Phase
  | sync
  | status
  | baudProbe
  | baudCommit
  | linkTest
  | erase
  | write
  | options
  | run
  deriving DecidableEq, Repr

/-- What the MCU is expected to answer with. -/
inductive Expect
  | nothing
  | echo
  | ack (cmd : UInt8) (payload : Bytes)
  | ackLen (cmd : UInt8) (payloadLen : ℕ)
  | blockAck (sum : UInt8)
  deriving DecidableEq, Repr

/-- One request in the session. -/
structure Step where
  phase : Phase
  label : String
  frame : Frame
  expect : Expect
  timeoutMs : UInt64
  retuneBeforeSend : Option UInt32
  retuneAfterSend : Option UInt32
  writeAddr : Option UInt32
  deriving DecidableEq, Repr

/-- The payload of `Action::Send`. -/
structure Send where
  index : ℕ
  label : String
  phase : Phase
  bytes : Bytes
  expectReply : Bool
  timeoutMs : UInt64
  retuneBeforeSend : Option UInt32
  retuneAfterSend : Option UInt32
  deriving DecidableEq, Repr

/-- What the driver should do next. -/
inductive Action
  | send (x : Send)
  | setBaud (baud : UInt32)
  | awaitingReply
  | finished
  deriving DecidableEq, Repr

/-- The reasons a session rejects a reply. -/
inductive SessionError
  | notAwaiting
  | wrongCommand (step : String) (want got : UInt8)
  | wrongDirection (step : String) (got : Dir)
  | notAnEcho (step : String) (got : Frame)
  | wrongPayload (step : String) (want got : Bytes)
  | wrongPayloadLen (step : String) (want got : ℕ)
  | blockAckMismatch (addr : UInt32) (want got : UInt8)
  deriving DecidableEq, Repr

/-- The MCU's generic acknowledgement command byte. -/
def replyAck : UInt8 := 0x80

namespace Step

/-- `step.expect != Expect::Nothing`. -/
def expectReply (step : Step) : Bool := step.expect != .nothing

/-- The `Send` action of the step at position `index`. -/
def send (index : ℕ) (step : Step) : Send :=
  { index, label := step.label, phase := step.phase, bytes := step.frame.encode,
    expectReply := step.expectReply, timeoutMs := step.timeoutMs,
    retuneBeforeSend := step.retuneBeforeSend, retuneAfterSend := step.retuneAfterSend }

/-- The checks `on_reply` makes on a reply to this step. -/
def checkReply (step : Step) (reply : Frame) : Except SessionError Unit :=
  if reply.dir ≠ .mcuToHost then .error (.wrongDirection step.label reply.dir)
  else
    match step.expect with
    | .nothing => .error .notAwaiting
    | .echo =>
        if !reply.isEchoOf step.frame then .error (.notAnEcho step.label reply) else .ok ()
    | .ack cmd payload =>
        if reply.cmd ≠ cmd then .error (.wrongCommand step.label cmd reply.cmd)
        else if reply.payload ≠ payload then
          .error (.wrongPayload step.label payload reply.payload)
        else .ok ()
    | .ackLen cmd payloadLen =>
        if reply.cmd ≠ cmd then .error (.wrongCommand step.label cmd reply.cmd)
        else if reply.payload.length ≠ payloadLen then
          .error (.wrongPayloadLen step.label payloadLen reply.payload.length)
        else .ok ()
    | .blockAck sum =>
        if reply.cmd ≠ replyAck then .error (.wrongCommand step.label replyAck reply.cmd)
        else if h : reply.payload.length ≠ 1 then
          .error (.wrongPayloadLen step.label 1 reply.payload.length)
        else
          have hlen : reply.payload.length = 1 := not_not.mp h
          if reply.payload[0] ≠ sum then
            .error (.blockAckMismatch (step.writeAddr.getD 0) sum reply.payload[0])
          else .ok ()

/-- **The replies a step is satisfied by.** -/
def Accepts (step : Step) (reply : Frame) : Prop :=
  reply.dir = .mcuToHost ∧
    match step.expect with
    | .nothing => False
    | .echo => reply.isEchoOf step.frame = true
    | .ack cmd payload => reply.cmd = cmd ∧ reply.payload = payload
    | .ackLen cmd payloadLen => reply.cmd = cmd ∧ reply.payload.length = payloadLen
    | .blockAck sum => reply.cmd = replyAck ∧ reply.payload = [sum]

/-- The checks pass exactly on the replies the step is satisfied by. -/
theorem checkReply_eq_ok_iff {step : Step} {reply : Frame} :
    step.checkReply reply = .ok () ↔ step.Accepts reply := by
  rw [checkReply, Accepts]
  by_cases hdir : reply.dir = .mcuToHost
  · rw [if_neg (not_not.mpr hdir)]
    cases step.expect with
    | nothing => simp
    | echo => simp [hdir]
    | ack cmd payload =>
        by_cases hcmd : reply.cmd = cmd <;> simp [hdir, hcmd]
    | ackLen cmd payloadLen =>
        by_cases hcmd : reply.cmd = cmd <;> simp [hdir, hcmd]
    | blockAck sum =>
        obtain ⟨dir, cmd, payload⟩ := reply
        by_cases hcmd : cmd = replyAck
        · match payload with
          | [] => simp [hcmd]
          | [b] => by_cases hb : b = sum <;> simp_all
          | _ :: _ :: _ => simp [hcmd]
        · simp [hcmd]
  · simp [hdir]

/-- A step that accepts a reply expects one. -/
theorem Accepts.expectReply {step : Step} {reply : Frame} (h : step.Accepts reply) :
    step.expectReply = true := by
  rw [Accepts] at h
  cases he : step.expect <;> simp_all [Step.expectReply]

end Step

/-! ### The session of the source -/

/-- `Iterator::rposition`: the position of the last element that satisfies `p`. -/
def rposition {α : Type} (p : α → Bool) : List α → Option ℕ
  | [] => none
  | a :: l =>
      match rposition p l with
      | some i => some (i + 1)
      | none => if p a then some 0 else none

/-- There is no last position exactly where no element satisfies the predicate. -/
theorem rposition_eq_none_iff {α : Type} {p : α → Bool} {l : List α} :
    rposition p l = none ↔ ∀ a ∈ l, p a = false := by
  induction l with
  | nil => simp [rposition]
  | cons a l ih =>
      cases h : rposition p l with
      | some i => simp [rposition, h, ← ih]
      | none =>
          have hl := ih.mp h
          simp only [rposition, h, List.mem_cons, forall_eq_or_imp]
          cases p a with
          | true => simp
          | false => simpa using hl

/-- `rposition` finds the last position at which `p` holds. -/
theorem rposition_eq_some_iff {α : Type} {p : α → Bool} {l : List α} {i : ℕ} :
    rposition p l = some i ↔
      (∃ a, l[i]? = some a ∧ p a = true) ∧ ∀ j a, i < j → l[j]? = some a → p a = false := by
  induction l generalizing i with
  | nil => simp [rposition]
  | cons a l ih =>
      cases i with
      | zero =>
          have hlater : (∀ j b, 0 < j → (a :: l)[j]? = some b → p b = false) ↔
              ∀ b ∈ l, p b = false := by
            constructor
            · intro h b hb
              obtain ⟨j, hj⟩ := List.mem_iff_getElem?.mp hb
              exact h (j + 1) b (by omega) (by rwa [List.getElem?_cons_succ])
            · intro h j b hj hb
              obtain ⟨j, rfl⟩ := Nat.exists_eq_succ_of_ne_zero (by omega : j ≠ 0)
              rw [List.getElem?_cons_succ] at hb
              exact h b (List.mem_of_getElem? hb)
          rw [hlater, ← rposition_eq_none_iff]
          cases h : rposition p l <;> simp [rposition, h]
      | succ i =>
          have hlater : (∀ j b, i + 1 < j → (a :: l)[j]? = some b → p b = false) ↔
              ∀ j b, i < j → l[j]? = some b → p b = false := by
            constructor
            · intro h j b hj hb
              exact h (j + 1) b (by omega) (by rwa [List.getElem?_cons_succ])
            · intro h j b hj hb
              obtain ⟨j, rfl⟩ := Nat.exists_eq_succ_of_ne_zero (by omega : j ≠ 0)
              rw [List.getElem?_cons_succ] at hb
              exact h j b (by omega) hb
          rw [hlater, List.getElem?_cons_succ, ← ih]
          cases h : rposition p l <;> simp [rposition, h]

/-- `s.phase == Phase::Write`. -/
def Step.isWrite (step : Step) : Bool := step.phase == .write

/-- A planned session being executed. The cursor `index` (`at` in the source) is within the
list whenever a reply is awaited. -/
structure Session where
  steps : List Step
  index : ℕ
  awaiting : Bool
  writesStarted : Bool
  writesFinished : Bool
  awaiting_lt : awaiting = true → index < steps.length

namespace Session

/-- `Session::new`. -/
def new (steps : List Step) : Session :=
  { steps, index := 0, awaiting := false, writesStarted := false, writesFinished := false,
    awaiting_lt := Bool.noConfusion }

/-- Move the cursor past its step. -/
def advance (s : Session) (h : s.index < s.steps.length) : Session :=
  let step := s.steps[s.index]
  let lastWrite := (rposition Step.isWrite s.steps).getD s.index
  { s with
    writesFinished :=
      if step.phase = .write then
        if s.index = lastWrite then true else s.writesFinished
      else s.writesFinished
    index := s.index + 1
    awaiting := false
    awaiting_lt := Bool.noConfusion }

/-- The state behind a `Send` of the step at the cursor. -/
def issue (s : Session) (h : s.index < s.steps.length) : Session :=
  let step := s.steps[s.index]
  let started := if step.phase = .write then true else s.writesStarted
  if step.expectReply then
    { s with writesStarted := started, awaiting := true, awaiting_lt := fun _ => h }
  else
    advance { s with writesStarted := started } h

/-- `Session::next_action`. -/
def nextAction (s : Session) : Action × Session :=
  if s.awaiting then (.awaitingReply, s)
  else if h : s.steps.length ≤ s.index then (.finished, s)
  else
    have h : s.index < s.steps.length := Nat.lt_of_not_le h
    (.send (s.steps[s.index].send s.index), s.issue h)

/-- `Session::on_reply`. -/
def onReply (s : Session) (reply : Frame) : Except SessionError Unit × Session :=
  if h : s.awaiting = true then
    have h : s.index < s.steps.length := s.awaiting_lt h
    match s.steps[s.index].checkReply reply with
    | .error e => (.error e, s)
    | .ok () => (.ok (), s.advance h)
  else (.error .notAwaiting, s)

/-- At least one write block has gone out and the last one is not acknowledged. -/
def flashIsIndeterminate (s : Session) : Bool := s.writesStarted && !s.writesFinished

/-- `Session::is_finished`. -/
def isFinished (s : Session) : Bool := s.steps.length ≤ s.index && !s.awaiting

/-- `Session::progress`. -/
def progress (s : Session) : ℕ × ℕ := (s.index, s.steps.length)

/-! ### What one call does -/

/-- Advancing keeps the steps. -/
@[simp] theorem advance_steps (s : Session) (h) : (s.advance h).steps = s.steps := rfl

/-- Advancing moves the cursor by one. -/
@[simp] theorem advance_index (s : Session) (h) : (s.advance h).index = s.index + 1 := rfl

/-- Behind an advance no reply is awaited. -/
@[simp] theorem advance_awaiting (s : Session) (h) : (s.advance h).awaiting = false := rfl

/-- Advancing leaves it as it is whether the writes have started. -/
@[simp] theorem advance_writesStarted (s : Session) (h) :
    (s.advance h).writesStarted = s.writesStarted := rfl

/-- Moving the cursor finishes the writes exactly when it leaves the last write step. -/
theorem advance_writesFinished (s : Session) (h : s.index < s.steps.length) :
    (s.advance h).writesFinished = true ↔
      s.writesFinished = true ∨ rposition Step.isWrite s.steps = some s.index := by
  show (if s.steps[s.index].phase = .write then _ else _) = true ↔ _
  cases hr : rposition Step.isWrite s.steps with
  | none =>
      have := rposition_eq_none_iff.mp hr _ (List.getElem_mem h)
      simp_all [Step.isWrite]
  | some k =>
      by_cases hk : k = s.index
      · obtain ⟨⟨a, ha, hp⟩, -⟩ := rposition_eq_some_iff.mp hr
        rw [hk, List.getElem?_eq_getElem h] at ha
        cases ha
        simp_all [Step.isWrite]
      · simp [hk, Ne.symm hk]

/-- Issuing a request keeps the steps. -/
@[simp] theorem issue_steps (s : Session) (h) : (s.issue h).steps = s.steps := by
  by_cases he : s.steps[s.index].expectReply = true <;> simp [issue, he]

/-- Behind a request a reply is awaited exactly if its step expects one. -/
theorem issue_awaiting (s : Session) (h : s.index < s.steps.length) :
    (s.issue h).awaiting = s.steps[s.index].expectReply := by
  by_cases he : s.steps[s.index].expectReply = true <;> simp [issue, he]

/-- The cursor stays at a step that expects a reply, and moves on at once from one that does not. -/
theorem issue_index (s : Session) (h : s.index < s.steps.length) :
    (s.issue h).index = if s.steps[s.index].expectReply then s.index else s.index + 1 := by
  by_cases he : s.steps[s.index].expectReply = true <;> simp [issue, he]

/-- The writes have started behind a request, if they had before or it is one. -/
theorem issue_writesStarted (s : Session) (h : s.index < s.steps.length) :
    (s.issue h).writesStarted = true ↔
      s.writesStarted = true ∨ s.steps[s.index].phase = .write := by
  by_cases he : s.steps[s.index].expectReply = true <;>
    by_cases hw : s.steps[s.index].phase = .write <;> simp [issue, he, hw]

/-- The writes are finished behind a request, if they were before or it is the last one and no reply
to it is expected. -/
theorem issue_writesFinished (s : Session) (h : s.index < s.steps.length) :
    (s.issue h).writesFinished = true ↔ s.writesFinished = true ∨
      s.steps[s.index].expectReply = false ∧
        rposition Step.isWrite s.steps = some s.index := by
  by_cases he : s.steps[s.index].expectReply = true
  · simp [issue, he]
  · simp only [issue, he, if_false, Bool.false_eq_true, advance_writesFinished]
    simp

/-- **What `next_action` can do.** -/
theorem nextAction_cases (s : Session) :
    (s.awaiting = true ∧ s.nextAction = (.awaitingReply, s)) ∨
    (s.awaiting = false ∧ s.steps.length ≤ s.index ∧ s.nextAction = (.finished, s)) ∨
    (s.awaiting = false ∧ ∃ h : s.index < s.steps.length,
      s.nextAction = (.send (s.steps[s.index].send s.index), s.issue h)) := by
  rw [nextAction]
  cases ha : s.awaiting with
  | true => exact .inl ⟨rfl, by simp⟩
  | false =>
      by_cases h : s.steps.length ≤ s.index
      · exact .inr (.inl ⟨rfl, h, by simp [h]⟩)
      · exact .inr (.inr ⟨rfl, Nat.lt_of_not_le h, by simp [h]⟩)

/-- **What `on_reply` can do**: reject the reply and stay as it is, or accept what the step
at the cursor is satisfied by and move on. -/
theorem onReply_cases (s : Session) (reply : Frame) :
    (∃ e, s.onReply reply = (.error e, s)) ∨
    (s.awaiting = true ∧ ∃ h : s.index < s.steps.length,
      s.steps[s.index].Accepts reply ∧ s.onReply reply = (.ok (), s.advance h)) := by
  rw [onReply]
  by_cases ha : s.awaiting = true
  · rw [dif_pos ha]
    have h := s.awaiting_lt ha
    cases hc : s.steps[s.index].checkReply reply with
    | error e => exact .inl ⟨e, by simp [hc]⟩
    | ok _ => exact .inr ⟨ha, h, Step.checkReply_eq_ok_iff.mp hc, by simp [hc]⟩
  · exact .inl ⟨.notAwaiting, dif_neg ha⟩

/-- A reply leaves the list of steps as it is. -/
theorem onReply_steps (s : Session) (reply : Frame) : (s.onReply reply).2.steps = s.steps := by
  obtain ⟨e, h⟩ | ⟨-, hlt, -, h⟩ := s.onReply_cases reply <;> rw [h]
  rfl

/-- While no reply is awaited, the request at the cursor is handed out. -/
theorem nextAction_of_lt {s : Session} (ha : s.awaiting = false) (h : s.index < s.steps.length) :
    s.nextAction = (.send (s.steps[s.index].send s.index), s.issue h) := by
  have hle : ¬ s.steps.length ≤ s.index := by omega
  simp [nextAction, ha, hle]

/-- Behind the last step the session is finished. -/
theorem nextAction_of_le {s : Session} (ha : s.awaiting = false) (h : s.steps.length ≤ s.index) :
    s.nextAction = (.finished, s) := by
  simp [nextAction, ha, h]

/-- A fitting reply to the request just handed out is accepted, and moves the cursor. -/
theorem onReply_issue {s : Session} (h : s.index < s.steps.length) {f : Frame}
    (hf : s.steps[s.index].Accepts f) :
    ∃ s', (s.issue h).onReply f = (.ok (), s') ∧ s'.index = s.index + 1 ∧
      s'.awaiting = false := by
  have he := hf.expectReply
  have hc := Step.checkReply_eq_ok_iff.mpr hf
  refine ⟨advance (s.issue h) (by rw [issue_index, if_pos he, issue_steps]; exact h), ?_, ?_, rfl⟩
  · simp [onReply, issue, he, hc]
  · rw [advance_index, issue_index, if_pos he]

/-! ### Histories -/

/-- Every element of a list has its partner in a related one. -/
theorem exists_of_mem_left {α β : Type} {R : α → β → Prop} {l : List α} {l' : List β}
    (h : List.Forall₂ R l l') {a : α} (ha : a ∈ l) : ∃ b ∈ l', R a b := by
  induction h with
  | nil => cases ha
  | cons hab _ ih =>
      rcases List.mem_cons.mp ha with rfl | ha
      · exact ⟨_, List.mem_cons_self, hab⟩
      · obtain ⟨b, hb, hr⟩ := ih ha
        exact ⟨b, List.mem_cons_of_mem _ hb, hr⟩

/-- What a caller of a session sees: the actions it was given, and the replies it passed in,
each with the cursor at that moment and the session's answer. -/
inductive Event
  | action (a : Action)
  | reply (index : ℕ) (frame : Frame) (result : Except SessionError Unit)

/-- The request of an event that hands one out. -/
def Event.sent : Event → Option Send
  | action (.send x) => some x
  | _ => none

/-- The reply of an event that accepts one, with the position of its step. -/
def Event.acceptedReply : Event → Option (ℕ × Frame)
  | reply index frame (.ok ()) => some (index, frame)
  | _ => none

/-- The requests handed out. -/
def sends (h : List Event) : List Send := h.filterMap Event.sent

/-- The replies accepted. -/
def accepted (h : List Event) : List (ℕ × Frame) := h.filterMap Event.acceptedReply

/-- The requests handed out in two parts of a history. -/
@[simp] theorem sends_append (h h' : List Event) : sends (h ++ h') = sends h ++ sends h' :=
  List.filterMap_append

/-- The replies accepted in two parts of a history. -/
@[simp] theorem accepted_append (h h' : List Event) :
    accepted (h ++ h') = accepted h ++ accepted h' :=
  List.filterMap_append

/-- An action hands out a request, or nothing. -/
@[simp] theorem sends_action (a : Action) :
    sends [.action a] = match a with | .send x => [x] | _ => [] := by
  cases a <;> rfl

/-- A reply hands out no request. -/
@[simp] theorem sends_reply (i : ℕ) (f : Frame) (r : Except SessionError Unit) :
    sends [.reply i f r] = [] := rfl

/-- An action accepts no reply. -/
@[simp] theorem accepted_action (a : Action) : accepted [.action a] = [] := rfl

/-- A reply that passes is accepted at its position. -/
@[simp] theorem accepted_reply_ok (i : ℕ) (f : Frame) :
    accepted [.reply i f (.ok ())] = [(i, f)] := rfl

/-- A reply that is rejected is not accepted. -/
@[simp] theorem accepted_reply_error (i : ℕ) (f : Frame) (e : SessionError) :
    accepted [.reply i f (.error e)] = [] := rfl

/-- The steps among the first `n` that expect a reply, with their positions. -/
def due (steps : List Step) (n : ℕ) : List (ℕ × Step) :=
  ((steps.take n).mapIdx Prod.mk).filter fun d => d.2.expectReply

/-- One more step owes one more reply, if it expects one. -/
theorem due_succ {steps : List Step} {n : ℕ} (h : n < steps.length) :
    due steps (n + 1) =
      due steps n ++ if steps[n].expectReply then [(n, steps[n])] else [] := by
  have hn : (steps.take n).length = n := List.length_take_of_le (Nat.le_of_lt h)
  rw [due, List.take_succ_eq_append_getElem h, List.mapIdx_concat, List.filter_append, hn, due]
  split <;> simp_all

/-- The replies that are due are those of the steps that expect one. -/
theorem mem_due {steps : List Step} {n j : ℕ} {step : Step} :
    (j, step) ∈ due steps n ↔ j < n ∧ steps[j]? = some step ∧ step.expectReply = true := by
  simp only [due, List.mem_filter, List.mem_mapIdx, Prod.mk.injEq]
  constructor
  · rintro ⟨⟨i, hi, rfl, rfl⟩, he⟩
    have := List.length_take_le n steps
    exact ⟨by omega, by rw [List.getElem_take, List.getElem?_eq_getElem], he⟩
  · rintro ⟨hj, hs, he⟩
    obtain ⟨hlt, rfl⟩ := List.getElem?_eq_some_iff.mp hs
    exact ⟨⟨j, by rw [List.length_take]; omega, rfl, by rw [List.getElem_take]⟩, he⟩

/-- An accepted reply answers a step: it is for that step and satisfies it. -/
def Answers (d : ℕ × Step) (a : ℕ × Frame) : Prop := a.1 = d.1 ∧ d.2.Accepts a.2

/-- The number of requests handed out. -/
def issued (s : Session) : ℕ := if s.awaiting then s.index + 1 else s.index

/-- **The session invariant**: what the caller of a session over `steps` has seen when the
session is in state `s`. -/
structure Tracks (steps : List Step) (h : List Event) (s : Session) : Prop where
  steps_eq : s.steps = steps
  index_le : s.index ≤ steps.length
  /-- the steps in order, each request once -/
  sends_eq : sends h = (steps.take s.issued).mapIdx Step.send
  /-- one fitting reply for each step behind the cursor that expects one -/
  answered : List.Forall₂ Answers (due steps s.index) (accepted h)
  /-- a reply is only awaited by a step that expects one -/
  awaiting : s.awaiting = true → ∃ step, steps[s.index]? = some step ∧ step.expectReply = true
  writesStarted : s.writesStarted = true ↔ ∃ x ∈ sends h, x.phase = .write
  writesFinished : s.writesFinished = true ↔
    ∃ k, rposition Step.isWrite steps = some k ∧ k < s.index

/-- The last write step is behind the cursor after a move iff it was before, or is the step
the cursor leaves. -/
theorem lastWrite_lt_succ_iff {steps : List Step} {n : ℕ} :
    (∃ k, rposition Step.isWrite steps = some k ∧ k < n + 1) ↔
      (∃ k, rposition Step.isWrite steps = some k ∧ k < n) ∨
        rposition Step.isWrite steps = some n := by
  constructor
  · rintro ⟨k, hk, hle⟩
    rcases Nat.lt_succ_iff_lt_or_eq.mp hle with hlt | rfl
    · exact .inl ⟨k, hk, hlt⟩
    · exact .inr hk
  · rintro (⟨k, hk, hlt⟩ | hk)
    · exact ⟨k, hk, by omega⟩
    · exact ⟨n, hk, by omega⟩

/-- A fresh session is tracked by the empty history. -/
theorem tracks_new (steps : List Step) : Tracks steps [] (new steps) where
  steps_eq := rfl
  index_le := Nat.zero_le _
  sends_eq := by simp [sends, issued, new]
  answered := by simp [accepted, due, new]
  awaiting := by simp [new]
  writesStarted := by simp [sends, new]
  writesFinished := by simp [new]

namespace Tracks

variable {steps : List Step} {h : List Event} {s : Session}

/-- An action that is no request changes nothing. -/
theorem append_action (t : Tracks steps h s) {a : Action} (ha : ∀ x, a ≠ .send x) :
    Tracks steps (h ++ [.action a]) s := by
  have hs : sends (h ++ [.action a]) = sends h := by
    cases a with
    | send x => exact absurd rfl (ha x)
    | _ => simp
  exact { t with
    sends_eq := by rw [hs, t.sends_eq]
    answered := by simpa using t.answered
    writesStarted := by rw [hs, t.writesStarted] }

/-- A rejected reply changes nothing. -/
theorem append_rejected (t : Tracks steps h s) (i : ℕ) (f : Frame) (e : SessionError) :
    Tracks steps (h ++ [.reply i f (.error e)]) s :=
  { t with
    sends_eq := by simpa using t.sends_eq
    answered := by simpa using t.answered
    writesStarted := by simpa using t.writesStarted }

/-- Handing out the request at the cursor preserves the invariant. -/
theorem issue (t : Tracks steps h s) (ha : s.awaiting = false) (hlt : s.index < s.steps.length) :
    Tracks steps (h ++ [.action (.send (s.steps[s.index].send s.index))]) (s.issue hlt) := by
  obtain rfl := t.steps_eq
  have hn : (s.steps.take s.index).length = s.index :=
    List.length_take_of_le (Nat.le_of_lt hlt)
  have hissued : (s.issue hlt).issued = s.index + 1 := by
    rw [issued, issue_awaiting, issue_index]
    split <;> simp_all
  refine ⟨issue_steps s hlt, ?_, ?_, ?_, ?_, ?_, ?_⟩
  · rw [issue_index]
    split <;> omega
  · rw [hissued, List.take_succ_eq_append_getElem hlt, List.mapIdx_concat, hn, sends_append,
      t.sends_eq, issued, ha]
    rfl
  · rw [issue_index, accepted_append, accepted_action, List.append_nil]
    by_cases he : s.steps[s.index].expectReply = true
    · rw [if_pos he]
      exact t.answered
    · rw [if_neg he, due_succ hlt, if_neg he, List.append_nil]
      exact t.answered
  · intro haw
    rw [issue_awaiting] at haw
    exact ⟨s.steps[s.index], by rw [issue_index, if_pos haw, List.getElem?_eq_getElem hlt], haw⟩
  · rw [issue_writesStarted, t.writesStarted, sends_append]
    simp [Step.send, or_and_right, exists_or]
  · rw [issue_writesFinished, t.writesFinished, issue_index]
    cases he : s.steps[s.index].expectReply with
    | true => simp
    | false =>
        rw [if_neg Bool.false_ne_true, lastWrite_lt_succ_iff]
        simp

/-- Accepting a reply preserves the invariant. -/
theorem advance (t : Tracks steps h s) (ha : s.awaiting = true) (hlt : s.index < s.steps.length)
    {f : Frame} (hf : s.steps[s.index].Accepts f) :
    Tracks steps (h ++ [.reply s.index f (.ok ())]) (s.advance hlt) := by
  obtain rfl := t.steps_eq
  refine ⟨rfl, hlt, ?_, ?_, Bool.noConfusion, ?_, ?_⟩
  · rw [sends_append, sends_reply, List.append_nil, t.sends_eq, issued, ha]
    rfl
  · rw [advance_index, due_succ hlt, if_pos hf.expectReply, accepted_append, accepted_reply_ok]
    exact List.rel_append t.answered (.cons ⟨rfl, hf⟩ .nil)
  · rw [advance_writesStarted, t.writesStarted, sends_append, sends_reply, List.append_nil]
  · rw [advance_writesFinished, t.writesFinished, advance_index, lastWrite_lt_succ_iff]

/-- One `next_action` preserves the invariant. -/
theorem nextAction (t : Tracks steps h s) :
    Tracks steps (h ++ [.action s.nextAction.1]) s.nextAction.2 := by
  obtain ⟨-, hn⟩ | ⟨-, -, hn⟩ | ⟨ha, hlt, hn⟩ := s.nextAction_cases
  · rw [hn]
    exact t.append_action (by simp)
  · rw [hn]
    exact t.append_action (by simp)
  · rw [hn]
    exact t.issue ha hlt

/-- One `on_reply` preserves the invariant. -/
theorem onReply (t : Tracks steps h s) (f : Frame) :
    Tracks steps (h ++ [.reply s.index f (s.onReply f).1]) (s.onReply f).2 := by
  obtain ⟨e, hr⟩ | ⟨ha, hlt, hf, hr⟩ := s.onReply_cases f
  · rw [hr]
    exact t.append_rejected _ _ e
  · rw [hr]
    exact t.advance ha hlt hf

/-- The replies accepted so far are those of the steps behind the cursor. -/
theorem mem_accepted (t : Tracks steps h s) {j : ℕ} {step : Step} (hj : j < s.index)
    (hs : steps[j]? = some step) (he : step.expectReply = true) :
    ∃ f, (j, f) ∈ accepted h ∧ step.Accepts f := by
  obtain ⟨⟨i, f⟩, hmem, rfl, hf⟩ := exists_of_mem_left t.answered (mem_due.mpr ⟨hj, hs, he⟩)
  exact ⟨f, hmem, hf⟩

/-- Every accepted reply satisfies its step, which is behind the cursor. -/
theorem of_mem_accepted (t : Tracks steps h s) {j : ℕ} {f : Frame} (hf : (j, f) ∈ accepted h) :
    j < s.index ∧ ∃ step, steps[j]? = some step ∧ step.Accepts f := by
  obtain ⟨⟨i, step⟩, hmem, rfl, hacc⟩ := exists_of_mem_left t.answered.flip hf
  obtain ⟨hlt, hs, -⟩ := mem_due.mp hmem
  exact ⟨hlt, step, hs, hacc⟩

/-- **What the abort report says.** Where every write step expects a reply, the flash is
reported as indeterminate exactly if some write request was handed out and the reply of the
last write step is not accepted. -/
theorem flashIsIndeterminate_iff (t : Tracks steps h s)
    (hwrites : ∀ step ∈ steps, step.phase = .write → step.expectReply = true) :
    s.flashIsIndeterminate = true ↔
      (∃ x ∈ sends h, x.phase = .write) ∧
        ¬ ∃ k f, rposition Step.isWrite steps = some k ∧ (k, f) ∈ accepted h := by
  have hfin : s.writesFinished = true ↔
      ∃ k f, rposition Step.isWrite steps = some k ∧ (k, f) ∈ accepted h := by
    rw [t.writesFinished]
    constructor
    · rintro ⟨k, hk, hlt⟩
      obtain ⟨⟨step, hs, hw⟩, -⟩ := rposition_eq_some_iff.mp hk
      have he := hwrites step (List.mem_of_getElem? hs) (by simpa [Step.isWrite] using hw)
      obtain ⟨f, hf, -⟩ := t.mem_accepted hlt hs he
      exact ⟨k, f, hk, hf⟩
    · rintro ⟨k, f, hk, hf⟩
      exact ⟨k, hk, (t.of_mem_accepted hf).1⟩
  rw [← hfin, ← t.writesStarted, flashIsIndeterminate]
  simp

/-- A finished session does not report the flash as indeterminate. -/
theorem flashIsIndeterminate_of_finished (t : Tracks steps h s) (hindex : s.index = steps.length)
    (ha : s.awaiting = false) : s.flashIsIndeterminate = false := by
  have hfin : s.writesStarted = true → s.writesFinished = true := by
    intro hstarted
    obtain ⟨x, hx, hw⟩ := t.writesStarted.mp hstarted
    rw [t.sends_eq, issued, ha] at hx
    obtain ⟨i, hi, rfl⟩ := List.mem_mapIdx.mp hx
    rw [t.writesFinished]
    cases hr : rposition Step.isWrite steps with
    | none =>
        have := rposition_eq_none_iff.mp hr _ (List.mem_of_mem_take (List.getElem_mem hi))
        rw [Step.isWrite, beq_eq_false_iff_ne] at this
        exact absurd hw this
    | some k =>
        obtain ⟨⟨step, hs, -⟩, -⟩ := rposition_eq_some_iff.mp hr
        obtain ⟨hlt, -⟩ := List.getElem?_eq_some_iff.mp hs
        exact ⟨k, rfl, by omega⟩
  rw [flashIsIndeterminate]
  cases hs : s.writesStarted with
  | false => rfl
  | true => rw [hfin hs]; rfl

end Tracks

/-! ### Sequences of calls -/

/-- A call on a session. -/
inductive Call
  | nextAction
  | onReply (reply : Frame)
  deriving DecidableEq, Repr

/-- Perform one call. -/
def call (s : Session) : Call → Event × Session
  | .nextAction => (.action s.nextAction.1, s.nextAction.2)
  | .onReply f => (.reply s.index f (s.onReply f).1, (s.onReply f).2)

/-- Perform a sequence of calls. -/
def runCalls (s : Session) : List Call → List Event × Session
  | [] => ([], s)
  | c :: cs =>
      let r := runCalls (s.call c).2 cs
      ((s.call c).1 :: r.1, r.2)

/-- One call of either kind preserves the session invariant. -/
theorem Tracks.call {steps : List Step} {h : List Event} {s : Session} (t : Tracks steps h s)
    (c : Call) : Tracks steps (h ++ [(s.call c).1]) (s.call c).2 := by
  cases c with
  | nextAction => exact t.nextAction
  | onReply f => exact t.onReply f

/-- **Any calls on a session are tracked**, in any order and with any replies. -/
theorem Tracks.runCalls {steps : List Step} {h : List Event} {s : Session}
    (t : Tracks steps h s) (cs : List Call) :
    Tracks steps (h ++ (s.runCalls cs).1) (s.runCalls cs).2 := by
  induction cs generalizing h s with
  | nil => simpa [Session.runCalls] using t
  | cons c cs ih =>
      have := ih (t.call c)
      rwa [List.append_assoc] at this

/-- **Every sequence of calls keeps the session invariant.** -/
theorem tracks_runCalls (steps : List Step) (cs : List Call) :
    Tracks steps ((new steps).runCalls cs).1 ((new steps).runCalls cs).2 :=
  (tracks_new steps).runCalls cs

/-- Each event of a run of calls is the outcome of one of them, in the state the calls
before it leave behind. -/
theorem runCalls_split {s : Session} {cs : List Call} {pre post : List Event} {e : Event}
    (h : (s.runCalls cs).1 = pre ++ e :: post) :
    ∃ cs₁ c cs₂, cs = cs₁ ++ c :: cs₂ ∧ (s.runCalls cs₁).1 = pre ∧
      ((s.runCalls cs₁).2.call c).1 = e := by
  induction cs generalizing s pre with
  | nil => simp [runCalls] at h
  | cons c cs ih =>
      cases pre with
      | nil => exact ⟨[], c, cs, rfl, rfl, (List.cons.inj h).1⟩
      | cons e₀ pre =>
          obtain ⟨he, htail⟩ := List.cons.inj h
          obtain ⟨cs₁, c', cs₂, rfl, hpre, hev⟩ := ih htail
          exact ⟨c :: cs₁, c', cs₂, rfl, by rw [runCalls, hpre, he], hev⟩

/-- A request is only handed out for the step at the cursor, and while no reply is
awaited. -/
theorem call_eq_send {s : Session} {c : Call} {x : Send}
    (h : (s.call c).1 = .action (.send x)) :
    s.awaiting = false ∧ ∃ hlt : s.index < s.steps.length, x = s.steps[s.index].send s.index := by
  cases c with
  | onReply f => cases h
  | nextAction =>
      obtain ⟨-, hn⟩ | ⟨-, -, hn⟩ | ⟨ha, hlt, hn⟩ := s.nextAction_cases
      · simp [call, hn] at h
      · simp [call, hn] at h
      · rw [call, hn] at h
        simp only [Event.action.injEq, Action.send.injEq] at h
        exact ⟨ha, hlt, h.symm⟩

/-- A request is handed out when all before it have been, and the replies due to their steps
have been accepted. -/
theorem Tracks.of_call_eq_send {steps : List Step} {h : List Event} {s : Session} {c : Call}
    {x : Send} (t : Tracks steps h s) (he : (s.call c).1 = .action (.send x)) :
    ∃ step, steps[x.index]? = some step ∧ x = step.send x.index ∧
      sends h = (steps.take x.index).mapIdx Step.send ∧
      List.Forall₂ Answers (due steps x.index) (accepted h) := by
  obtain rfl := t.steps_eq
  obtain ⟨ha, hlt, rfl⟩ := call_eq_send he
  refine ⟨s.steps[s.index], List.getElem?_eq_getElem hlt, rfl, ?_, t.answered⟩
  rw [t.sends_eq, issued, ha]
  rfl

/-- **A request waits for every reply before it.** Whatever calls are made, when the request
of step `i` is handed out, exactly the replies due to the steps before `i` have been
accepted. -/
theorem send_after_replies {steps : List Step} {cs : List Call} {pre post : List Event} {x : Send}
    (h : ((new steps).runCalls cs).1 = pre ++ .action (.send x) :: post) :
    ∃ step, steps[x.index]? = some step ∧ x = step.send x.index ∧
      sends pre = (steps.take x.index).mapIdx Step.send ∧
      List.Forall₂ Answers (due steps x.index) (accepted pre) := by
  obtain ⟨cs₁, c, cs₂, -, rfl, he⟩ := runCalls_split h
  exact (tracks_runCalls steps cs₁).of_call_eq_send he

end Session

end Stcbsl
