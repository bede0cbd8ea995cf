import Stcbsl.Session

/-!
# The Session Never Leaves its List of Steps

In the source a session is a plain record: its cursor may point anywhere, and the list of steps is
indexed without a check. `RawSession` is this record, with every index as partial as the source
has it. Started on any list of steps it takes the same states as `Session`, whose cursor is within
the list whenever a reply is awaited, so no index is ever out of bounds.

## Two levels of one design

`RawSession` is the session as the source has it and `Session` the one that the rest of this
development reasons about. They are connected call by call: `Session.raw` forgets the bounds, and
each call of the record on such a state answers as the session does and leaves the record of the
state that the session comes to. Every sequence of calls on a new record then follows the one on
a new session (`RawSession.runCalls_raw`), so the bounds that `Session` carries cost nothing.

## Main results

* `RawSession.nextAction_raw`, `RawSession.onReply_raw` — one call, with unchecked indices.
* `RawSession.runCalls_raw` — the record computes what `Session` does, and never panics.
* `session_safe` — what holds of the record in every reachable state.
-/

namespace Stcbsl

/-- The fields of `Session`. The cursor `index` is `at` in the source. -/
structure RawSession where
  steps : List Step
  index : ℕ
  awaiting : Bool
  writesStarted : Bool
  writesFinished : Bool
  deriving DecidableEq, Repr

namespace RawSession

open Session (Call Event)

/-! ### The session of the source, with its indices -/

/-- `Session::new`. -/
def new (steps : List Step) : RawSession :=
  { steps, index := 0, awaiting := false, writesStarted := false, writesFinished := false }

/-- `advance`; `none` where an index is out of bounds, here and below. -/
def advance (s : RawSession) : Option RawSession := do
  let step ← s.steps[s.index]?
  let lastWrite := (rposition Step.isWrite s.steps).getD s.index
  let s :=
    if step.phase = .write then
      if s.index = lastWrite then { s with writesFinished := true } else s
    else s
  some { s with index := s.index + 1, awaiting := false }

/-- `Session::next_action`. -/
def nextAction (s : RawSession) : Option (Action × RawSession) :=
  if s.awaiting then some (.awaitingReply, s)
  else if s.steps.length ≤ s.index then some (.finished, s)
  else do
    let step ← s.steps[s.index]?
    let s := if step.phase = .write then { s with writesStarted := true } else s
    let action := Action.send (step.send s.index)
    if step.expectReply then some (action, { s with awaiting := true })
    else do
      let s ← s.advance
      some (action, s)

/-- `Session::on_reply`. -/
def onReply (s : RawSession) (reply : Frame) : Option (Except SessionError Unit × RawSession) :=
  if !s.awaiting then some (.error .notAwaiting, s)
  else do
    let step ← s.steps[s.index]?
    match step.checkReply reply with
    | .error e => some (.error e, s)
    | .ok () => do
        let s ← s.advance
        some (.ok (), s)

/-- Perform one call. -/
def call (s : RawSession) : Call → Option (Event × RawSession)
  | .nextAction => s.nextAction.map fun r => (.action r.1, r.2)
  | .onReply f => (s.onReply f).map fun r => (.reply s.index f r.1, r.2)

/-- Perform a sequence of calls. -/
def runCalls (s : RawSession) : List Call → Option (List Event × RawSession)
  | [] => some ([], s)
  | c :: cs => do
      let (e, s) ← s.call c
      let (h, s) ← s.runCalls cs
      some (e :: h, s)

end RawSession

/-! ### The record computes what the session does -/

/-- The record of a session. -/
def Session.raw (s : Session) : RawSession :=
  { steps := s.steps, index := s.index, awaiting := s.awaiting, writesStarted := s.writesStarted,
    writesFinished := s.writesFinished }

namespace RawSession

open Session (Call Event)

/-- At a step, advancing with unchecked indices does not panic, and does the same. -/
theorem advance_raw (s : Session) (h : s.index < s.steps.length) :
    s.raw.advance = some (s.advance h).raw := by
  have hs : s.raw.steps[s.raw.index]? = some s.steps[s.index] := List.getElem?_eq_getElem h
  rw [advance, hs]
  by_cases hw : s.steps[s.index].phase = .write
  · by_cases hlast : s.index = (rposition Step.isWrite s.steps).getD s.index
    · simp [Session.raw, Session.advance, hw, ← hlast]
    · simp [Session.raw, Session.advance, hw, hlast]
  · simp [Session.raw, Session.advance, hw]

/-- **The next action never panics** with unchecked indices, and is the same. -/
theorem nextAction_raw (s : Session) :
    s.raw.nextAction = some (s.nextAction.1, s.nextAction.2.raw) := by
  obtain ⟨ha, hn⟩ | ⟨ha, hle, hn⟩ | ⟨ha, hlt, hn⟩ := s.nextAction_cases
  · have haw : s.raw.awaiting = true := ha
    rw [hn, nextAction, if_pos haw]
  · have haw : ¬ s.raw.awaiting = true := by simpa [Session.raw] using ha
    have hend : s.raw.steps.length ≤ s.raw.index := hle
    rw [hn, nextAction, if_neg haw, if_pos hend]
  · have haw : ¬ s.raw.awaiting = true := by simpa [Session.raw] using ha
    have hend : ¬ s.raw.steps.length ≤ s.raw.index := Nat.not_le.mpr hlt
    have hs : s.raw.steps[s.raw.index]? = some s.steps[s.index] := List.getElem?_eq_getElem hlt
    rw [hn, nextAction, if_neg haw, if_neg hend, hs]
    simp only [Option.bind_eq_bind, Option.bind_some]
    let t : Session :=
      { s with writesStarted := if s.steps[s.index].phase = .write then true else s.writesStarted }
    have ht : (if s.steps[s.index].phase = .write then { s.raw with writesStarted := true }
        else s.raw) = t.raw := by
      by_cases hw : s.steps[s.index].phase = .write <;> simp [t, hw, Session.raw]
    rw [ht]
    by_cases he : s.steps[s.index].expectReply = true
    · simp [he, Session.issue, t, Session.raw]
    · rw [if_neg he, advance_raw t hlt]
      simp only [Option.bind_some, Session.issue, he, if_false, Bool.false_eq_true]
      rfl

/-- **A reply never panics** with unchecked indices, and is judged the same. -/
theorem onReply_raw (s : Session) (reply : Frame) :
    s.raw.onReply reply = some ((s.onReply reply).1, (s.onReply reply).2.raw) := by
  by_cases ha : s.awaiting = true
  · have hlt := s.awaiting_lt ha
    have hs : s.raw.steps[s.raw.index]? = some s.steps[s.index] := List.getElem?_eq_getElem hlt
    rw [onReply, if_neg (by simp [Session.raw, ha]), hs, Session.onReply, dif_pos ha]
    simp only [Option.bind_eq_bind, Option.bind_some]
    cases s.steps[s.index].checkReply reply with
    | error e => rfl
    | ok _ => simp [advance_raw s hlt]
  · rw [onReply, if_pos (by simpa [Session.raw] using ha), Session.onReply, dif_neg ha]

/-- No call panics with unchecked indices, and each does the same. -/
theorem call_raw (s : Session) (c : Call) :
    s.raw.call c = some ((s.call c).1, (s.call c).2.raw) := by
  cases c with
  | nextAction => rw [call, nextAction_raw]; rfl
  | onReply f => rw [call, onReply_raw]; rfl

/-- **The record of the source computes what the session does, and never panics.** -/
theorem runCalls_raw (s : Session) (calls : List Call) :
    s.raw.runCalls calls = some ((s.runCalls calls).1, (s.runCalls calls).2.raw) := by
  induction calls generalizing s with
  | nil => rfl
  | cons c calls ih =>
      rw [runCalls, call_raw]
      simp only [Option.bind_eq_bind, Option.bind_some]
      rw [ih]
      rfl

end RawSession

/-! ### Safety -/

/-- A session that has finished its writes has started them: the last write step is behind the
cursor, so its request was handed out. -/
theorem Session.Tracks.writesStarted_of_writesFinished {steps : List Step}
    {h : List Session.Event} {s : Session} (t : Tracks steps h s)
    (hf : s.writesFinished = true) : s.writesStarted = true := by
  obtain ⟨k, hk, hlt⟩ := t.writesFinished.mp hf
  obtain ⟨⟨step, hs, hw⟩, -⟩ := rposition_eq_some_iff.mp hk
  obtain ⟨hklen, rfl⟩ := List.getElem?_eq_some_iff.mp hs
  have hissued : k < s.issued := by
    rw [issued]
    split <;> omega
  have hsent : steps[k].send k ∈ Session.sends h := by
    rw [t.sends_eq, List.mem_mapIdx]
    refine ⟨k, ?_, ?_⟩
    · rw [List.length_take]
      omega
    · rw [List.getElem_take]
  exact t.writesStarted.mpr ⟨_, hsent, by simpa [Step.isWrite, Step.send] using hw⟩

/-- A step that expects a reply expects something. -/
theorem Step.expectReply_iff {step : Step} : step.expectReply = true ↔ step.expect ≠ .nothing := by
  simp [Step.expectReply]

/-- **A session is safe.** Whatever the steps and whatever calls are made on a new session, no
index is out of bounds, the cursor is at most at the end of the list, and a reply is awaited only
for a step of the list, which expects something; finished writes have been started. -/
theorem session_safe (steps : List Step) (calls : List Session.Call) :
    ∃ h s, (RawSession.new steps).runCalls calls = some (h, s) ∧
      s.steps = steps ∧
      s.index ≤ steps.length ∧
      (s.awaiting = true → ∃ hlt : s.index < steps.length, steps[s.index].expect ≠ .nothing) ∧
      (s.writesFinished = true → s.writesStarted = true) := by
  have t := Session.tracks_runCalls steps calls
  refine ⟨_, _, RawSession.runCalls_raw (Session.new steps) calls, t.steps_eq, t.index_le, ?_,
    t.writesStarted_of_writesFinished⟩
  intro ha
  obtain ⟨step, hs, he⟩ := t.awaiting ha
  obtain ⟨hlt, rfl⟩ := List.getElem?_eq_some_iff.mp hs
  exact ⟨hlt, Step.expectReply_iff.mp he⟩

end Stcbsl
