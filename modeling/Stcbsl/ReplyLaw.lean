import Stcbsl.TraceLaw

/-!
# The Reply Law of a Session

What a session makes of a reply, and what it says about the flash after it. A reply is
accepted where it meets the expectation of the step at the cursor, moves the cursor by one
and leaves nothing outstanding; every other reply leaves the whole session as it was. The
report that the flash is indeterminate is raised by the first write request and lowered by
the completion of the last write step, whether that completion is a reply or, for a step
that expects none, its request.

## Two readings of the report

The source keeps the report in two flags, raised and lowered where the calls are made. What the
history says is told without flags: some write request was handed out, and not all write steps
are completed. A step is completed where its reply was accepted, or, if it expects none, where
its request was handed out, and the completed steps are those behind the cursor. Where the write
steps stand in the list is arbitrary, and so is what they expect.

## Main results

* `Step.accepts_iff` — what a step accepts, told without the functions of the source.
* `Session.onReply_exact` — a reply is accepted exactly where it should be, and a rejected
  one changes nothing.
* `Session.Tracks.completed_iff` — the completed steps are those behind the cursor.
* `Session.flash_indeterminate_exact` — what the report says about the history, in every
  reachable state.
-/

namespace Stcbsl

/-! ### Replies -/

/-- **The replies that meet an expectation**, given the request they answer. -/
def Expect.MetBy (request reply : Frame) : Expect → Prop
  | .nothing => False
  | .echo => request.dir = .hostToMcu ∧ reply.cmd = request.cmd ∧ reply.payload = request.payload
  | .ack cmd payload => reply.cmd = cmd ∧ reply.payload = payload
  | .ackLen cmd payloadLen => reply.cmd = cmd ∧ reply.payload.length = payloadLen
  | .blockAck sum => reply.cmd = 0x80 ∧ reply.payload = [sum]

/-- **What a step accepts**: replies of the MCU that meet its expectation. -/
theorem Step.accepts_iff {step : Step} {reply : Frame} :
    step.Accepts reply ↔ reply.dir = .mcuToHost ∧ step.expect.MetBy step.frame reply := by
  rw [Accepts]
  refine and_congr_right fun hdir => ?_
  cases step.expect with
  | echo =>
      show reply.isEchoOf step.frame = true ↔ _
      rw [Frame.isEchoOf_iff]
      exact and_iff_right hdir
  | _ => exact Iff.rfl

namespace Session

/-- A reply is accepted exactly where one is awaited and the step at the cursor accepts it. -/
theorem onReply_eq_ok_iff (s : Session) (reply : Frame) :
    (s.onReply reply).1 = .ok () ↔
      s.awaiting = true ∧ ∃ step, s.steps[s.index]? = some step ∧ step.Accepts reply := by
  obtain ⟨e, hr⟩ | ⟨ha, hlt, hacc, hr⟩ := s.onReply_cases reply
  · refine iff_of_false (by simp [hr]) ?_
    rintro ⟨ha, step, hs, hacc⟩
    obtain ⟨hlt, rfl⟩ := List.getElem?_eq_some_iff.mp hs
    simp [onReply, ha, Step.checkReply_eq_ok_iff.mpr hacc] at hr
  · exact iff_of_true (by rw [hr]) ⟨ha, _, List.getElem?_eq_getElem hlt, hacc⟩

/-- An accepted reply moves the cursor by one, and nothing is awaited behind it. -/
theorem onReply_of_ok {s : Session} {reply : Frame} (h : (s.onReply reply).1 = .ok ()) :
    (s.onReply reply).2.index = s.index + 1 ∧ (s.onReply reply).2.awaiting = false := by
  obtain ⟨e, hr⟩ | ⟨-, hlt, -, hr⟩ := s.onReply_cases reply
  · rw [hr] at h
    cases h
  · rw [hr]
    exact ⟨rfl, rfl⟩

/-- A rejected reply leaves the session as it was. -/
theorem onReply_of_error {s : Session} {reply : Frame} {e : SessionError}
    (h : (s.onReply reply).1 = .error e) : (s.onReply reply).2 = s := by
  obtain ⟨e', hr⟩ | ⟨-, hlt, -, hr⟩ := s.onReply_cases reply
  · rw [hr]
  · rw [hr] at h
    cases h

/-- **Replies are checked exactly and atomically.** In every reachable state, a reply is
accepted exactly if one is outstanding, it comes from the MCU and it meets the expectation of
the step at the cursor. An accepted reply advances the cursor by one and leaves nothing
outstanding. A rejected one leaves the session completely as it was, so that a reply that
would have been accepted in its place still is. -/
theorem onReply_exact (steps : List Step) (calls : List Call) (reply : Frame) :
    let h := ((new steps).runCalls calls).1
    let s := ((new steps).runCalls calls).2
    let r := s.onReply reply
    (r.1 = .ok () ↔ outstanding h = 1 ∧ reply.dir = .mcuToHost ∧
      ∃ step, steps[s.index]? = some step ∧ step.expect.MetBy step.frame reply) ∧
    (r.1 = .ok () → r.2.index = s.index + 1 ∧ r.2.awaiting = false ∧
      outstanding (h ++ [.reply s.index reply r.1]) = 0) ∧
    ∀ e, r.1 = .error e → r.2 = s ∧
      ∀ later, (r.2.onReply later).1 = .ok () ↔ (s.onReply later).1 = .ok () := by
  intro h s r
  have t : Tracks steps h s := tracks_runCalls steps calls
  have hout : outstanding h = 1 ↔ s.awaiting = true := by
    rw [t.outstanding]
    cases s.awaiting <;> simp
  refine ⟨?_, ?_, ?_⟩
  · rw [onReply_eq_ok_iff, hout, t.steps_eq]
    simp only [Step.accepts_iff]
    tauto
  · intro hok
    obtain ⟨hindex, ha⟩ := onReply_of_ok hok
    refine ⟨hindex, ha, ?_⟩
    rw [(t.onReply reply).outstanding, ha]
    rfl
  · intro e he
    have hsame : r.2 = s := onReply_of_error he
    exact ⟨hsame, fun later => by rw [hsame]⟩

/-! ### Completed steps -/

/-- The step at position `k` has been completed: its reply has been accepted, or its request
has been handed out if it expects none. -/
def Completed (h : List Event) (k : ℕ) (step : Step) : Prop :=
  (∃ f, (k, f) ∈ accepted h) ∨ (step.expect = .nothing ∧ ∃ x ∈ sends h, x.index = k)

/-- The last write step of a list stands at position `k`. -/
structure LastWrite (steps : List Step) (k : ℕ) (step : Step) : Prop where
  getElem? : steps[k]? = some step
  phase : step.phase = .write
  last : ∀ j later, k < j → steps[j]? = some later → later.phase ≠ .write

/-- The backwards search of the source finds the last write step. -/
theorem lastWrite_iff {steps : List Step} {k : ℕ} :
    (∃ step, LastWrite steps k step) ↔ rposition Step.isWrite steps = some k := by
  rw [rposition_eq_some_iff]
  constructor
  · rintro ⟨step, hs, hw, hlast⟩
    exact ⟨⟨step, hs, by simpa [Step.isWrite] using hw⟩,
      fun j later hj hl => by simpa [Step.isWrite] using hlast j later hj hl⟩
  · rintro ⟨⟨step, hs, hw⟩, hlast⟩
    exact ⟨step, hs, by simpa [Step.isWrite] using hw,
      fun j later hj hl => by simpa [Step.isWrite] using hlast j later hj hl⟩

/-- A list has one last write step at most. -/
theorem LastWrite.unique {steps : List Step} {j k : ℕ} {x y : Step} (hx : LastWrite steps j x)
    (hy : LastWrite steps k y) : j = k ∧ x = y := by
  have hj := lastWrite_iff.mp ⟨x, hx⟩
  rw [lastWrite_iff.mp ⟨y, hy⟩] at hj
  obtain rfl := Option.some.inj hj
  exact ⟨rfl, Option.some.inj (hx.getElem?.symm.trans hy.getElem?)⟩

/-- A list with a write step has a last one. -/
theorem exists_lastWrite {steps : List Step} {step : Step} (hmem : step ∈ steps)
    (hw : step.phase = .write) : ∃ k last, LastWrite steps k last := by
  cases hr : rposition Step.isWrite steps with
  | none =>
      have := rposition_eq_none_iff.mp hr step hmem
      rw [Step.isWrite, beq_eq_false_iff_ne] at this
      exact absurd hw this
  | some k => exact ⟨k, lastWrite_iff.mpr hr⟩

namespace Tracks

variable {steps : List Step} {h : List Event} {s : Session}

/-- **The completed steps are those behind the cursor.** -/
theorem completed_iff (t : Tracks steps h s) {k : ℕ} {step : Step} (hs : steps[k]? = some step) :
    Completed h k step ↔ k < s.index := by
  constructor
  · rintro (⟨f, hf⟩ | ⟨he, x, hx, rfl⟩)
    · exact (t.of_mem_accepted hf).1
    · rw [t.sends_eq] at hx
      obtain ⟨i, hi, rfl⟩ := List.mem_mapIdx.mp hx
      have hissued : i < s.issued := Nat.lt_of_lt_of_le hi (List.length_take_le _ _)
      rw [issued] at hissued
      split at hissued
      · next ha =>
          -- the step at the cursor waits for a reply, this one does not
          obtain ⟨step', hs', he'⟩ := t.awaiting ha
          rcases Nat.lt_succ_iff_lt_or_eq.mp hissued with hlt | rfl
          · exact hlt
          · rw [Step.send, hs'] at hs
            obtain rfl := Option.some.inj hs
            rw [Step.expectReply, he] at he'
            cases he'
      · exact hissued
  · intro hlt
    by_cases he : step.expectReply = true
    · obtain ⟨f, hf, -⟩ := t.mem_accepted hlt hs he
      exact .inl ⟨f, hf⟩
    · refine .inr ⟨by simpa [Step.expectReply] using he, step.send k, ?_, rfl⟩
      have hissued : k < s.issued := by
        rw [issued]
        split <;> omega
      obtain ⟨hk, rfl⟩ := List.getElem?_eq_some_iff.mp hs
      rw [t.sends_eq, List.mem_mapIdx]
      exact ⟨k, by rw [List.length_take]; omega, by rw [List.getElem_take]⟩

/-- The writes are finished when the last write step is completed. -/
theorem writesFinished_iff (t : Tracks steps h s) :
    s.writesFinished = true ↔ ∃ k step, LastWrite steps k step ∧ Completed h k step := by
  rw [t.writesFinished]
  constructor
  · rintro ⟨k, hk, hlt⟩
    obtain ⟨step, hstep⟩ := lastWrite_iff.mpr hk
    exact ⟨k, step, hstep, (t.completed_iff hstep.getElem?).mpr hlt⟩
  · rintro ⟨k, step, hstep, hc⟩
    exact ⟨k, lastWrite_iff.mp ⟨step, hstep⟩, (t.completed_iff hstep.getElem?).mp hc⟩

/-- **What the report says about the history.** -/
theorem flashIsIndeterminate_iff_completed (t : Tracks steps h s) :
    s.flashIsIndeterminate = true ↔ (∃ x ∈ sends h, x.phase = .write) ∧
      ∃ k step, LastWrite steps k step ∧ ¬ Completed h k step := by
  have hflag : s.flashIsIndeterminate = true ↔
      s.writesStarted = true ∧ ¬ s.writesFinished = true := by
    simp [flashIsIndeterminate]
  rw [hflag, t.writesStarted, t.writesFinished_iff]
  refine and_congr_right fun hstarted => ?_
  obtain ⟨x, hx, hw⟩ := hstarted
  obtain ⟨sent, hsent, hxeq⟩ := t.of_mem_sends hx
  obtain ⟨k, step, hstep⟩ := exists_lastWrite (List.mem_of_getElem? hsent) (by rw [← hw, hxeq]; rfl)
  constructor
  · intro hno
    exact ⟨k, step, hstep, fun hc => hno ⟨k, step, hstep, hc⟩⟩
  · rintro ⟨k', step', hstep', hno⟩ ⟨k'', step'', hstep'', hc⟩
    obtain ⟨rfl, rfl⟩ := hstep'.unique hstep''
    exact hno hc

/-- **While the reply to a write step is awaited**, first, middle or last, the flash is
indeterminate. -/
theorem flashIsIndeterminate_of_awaiting (t : Tracks steps h s) (ha : s.awaiting = true)
    {step : Step} (hs : steps[s.index]? = some step) (hw : step.phase = .write) :
    s.flashIsIndeterminate = true := by
  obtain ⟨k, last, hlast⟩ := exists_lastWrite (List.mem_of_getElem? hs) hw
  have hle : s.index ≤ k := by
    by_contra hlt
    exact hlast.last s.index step (Nat.lt_of_not_le hlt) hs hw
  refine t.flashIsIndeterminate_iff_completed.mpr ⟨⟨step.send s.index, ?_, hw⟩, k, last, hlast, ?_⟩
  · obtain ⟨hlt, rfl⟩ := List.getElem?_eq_some_iff.mp hs
    rw [t.sends_eq, issued, if_pos ha, List.mem_mapIdx]
    exact ⟨s.index, by rw [List.length_take]; omega, by rw [List.getElem_take]⟩
  · rw [t.completed_iff hlast.getElem?]
    omega

end Tracks

/-- A session that awaits a reply and rejects the one it is given does nothing, however often
it is asked. -/
theorem runCalls_of_rejected {s : Session} (ha : s.awaiting = true) {reply : Frame}
    {e : SessionError} (hr : s.onReply reply = (.error e, s)) {more : List Call}
    (hmore : ∀ c ∈ more, c = .nextAction ∨ c = .onReply reply) :
    sends (s.runCalls more).1 = [] ∧ (s.runCalls more).2 = s := by
  have hn : s.nextAction = (.awaitingReply, s) := by simp [Session.nextAction, ha]
  induction more with
  | nil => exact ⟨rfl, rfl⟩
  | cons c more ih =>
      obtain ⟨hc, hmore⟩ := List.forall_mem_cons.mp hmore
      obtain ⟨hsends, hend⟩ := ih hmore
      rcases hc with rfl | rfl
      · simp only [runCalls, call, hn]
        exact ⟨hsends, hend⟩
      · simp only [runCalls, call, hr]
        exact ⟨hsends, hend⟩

/-! ### The report over a run -/

/-- The events of more calls come behind those before. -/
theorem runCalls_append_fst (s : Session) (cs cs' : List Call) :
    (s.runCalls (cs ++ cs')).1 = (s.runCalls cs).1 ++ ((s.runCalls cs).2.runCalls cs').1 := by
  induction cs generalizing s with
  | nil => rfl
  | cons c cs ih => exact congrArg _ (ih _)

/-- **A write request is never taken back**, whatever is called after it. -/
theorem writesStarted_of_append {steps : List Step} {calls : List Call} (more : List Call)
    (h : ((new steps).runCalls calls).2.writesStarted = true) :
    ((new steps).runCalls (calls ++ more)).2.writesStarted = true := by
  obtain ⟨x, hx, hw⟩ := (tracks_runCalls steps calls).writesStarted.mp h
  refine (tracks_runCalls steps (calls ++ more)).writesStarted.mpr ⟨x, ?_, hw⟩
  rw [runCalls_append_fst, sends_append]
  exact List.mem_append_left _ hx

/-- **Finished writes stay finished**, whatever is called after them. -/
theorem writesFinished_of_append {steps : List Step} {calls : List Call} (more : List Call)
    (h : ((new steps).runCalls calls).2.writesFinished = true) :
    ((new steps).runCalls (calls ++ more)).2.writesFinished = true := by
  obtain ⟨k, hk, hlt⟩ := (tracks_runCalls steps calls).writesFinished.mp h
  refine (tracks_runCalls steps (calls ++ more)).writesFinished.mpr ⟨k, hk, ?_⟩
  rw [runCalls_append_snd]
  exact Nat.lt_of_lt_of_le hlt (index_le_runCalls _ more)

/-- **The report is exact in every reachable state.** For every list of steps and every
sequence of calls, the flash is reported as indeterminate exactly if a write request has been
handed out and the last write step of the list has not been completed. It never is for a list
without write steps, and once the report has gone from true to false it stays false. -/
theorem flash_indeterminate_exact (steps : List Step) (calls : List Call) :
    let h := ((new steps).runCalls calls).1
    let indeterminate := fun calls => ((new steps).runCalls calls).2.flashIsIndeterminate
    (indeterminate calls = true ↔ (∃ x ∈ sends h, x.phase = .write) ∧
      ∃ k step, LastWrite steps k step ∧ ¬ Completed h k step) ∧
    ((∀ step ∈ steps, step.phase ≠ .write) → indeterminate calls = false) ∧
    ∀ more later, indeterminate calls = true → indeterminate (calls ++ more) = false →
      indeterminate (calls ++ more ++ later) = false := by
  intro h indeterminate
  have t : Tracks steps h ((new steps).runCalls calls).2 := tracks_runCalls steps calls
  refine ⟨t.flashIsIndeterminate_iff_completed, ?_, ?_⟩
  · intro hnone
    rw [← Bool.not_eq_true]
    intro htrue
    obtain ⟨-, k, step, hstep, -⟩ := t.flashIsIndeterminate_iff_completed.mp htrue
    exact hnone step (List.mem_of_getElem? hstep.getElem?) hstep.phase
  · intro more later hup hdown
    obtain ⟨hstarted, -⟩ : _ ∧ _ := Bool.and_eq_true_iff.mp hup
    have hstarted' := writesStarted_of_append more hstarted
    have hfinished : ((new steps).runCalls (calls ++ more)).2.writesFinished = true := by
      simpa [indeterminate, flashIsIndeterminate, hstarted'] using hdown
    have hlater := writesFinished_of_append later hfinished
    simp only [indeterminate, flashIsIndeterminate, hlater, Bool.not_true, Bool.and_false]

end Session

end Stcbsl
