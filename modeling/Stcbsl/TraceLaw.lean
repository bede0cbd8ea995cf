import Stcbsl.Session

/-!
# The Trace Law of a Session

What every caller of a session sees, whatever it does: the requests come one by one, each
waits for the reply before it, and what the session says about itself (`next_action`,
`is_finished`, `progress`) agrees with what has happened.

## Counting replies

The law counts. The requests handed out are as many as the cursor has passed, and one more while
a reply is awaited; the replies accepted are as many as the cursor has passed steps that expect
one. Both follow from `Tracks` of `Stcbsl.Session`, and so hold in every reachable state; nothing
is assumed about the steps, and a list in which no step expects a reply is a list like any other.

A caller that asks for an action twice, passes in a frame before there was a request, or passes
in a wrong one, is given an answer each time. Such calls stand in the history like all others, as
neither a request nor an accepted reply.

## Main results

* `Session.Tracks.outstanding` — one reply is outstanding while the session awaits it, none
  otherwise.
* `Session.Tracks.length_accepted` — the replies accepted are as many as the cursor has
  passed steps that expect one.
* `Session.trace_law` — the law of every sequence of calls.
-/

namespace Stcbsl

namespace Session

/-- The requests handed out that expect a reply. -/
def requested (h : List Event) : List Send := (sends h).filter Send.expectReply

/-- The number of replies outstanding: requested, and not yet accepted. -/
def outstanding (h : List Event) : ℕ := (requested h).length - (accepted h).length

/-! ### Counting replies -/

/-- The steps among the first `n` that expect a reply, counted. -/
theorem length_due (steps : List Step) (n : ℕ) :
    (due steps n).length = (steps.take n).countP Step.expectReply := by
  rw [due, List.mapIdx_eq_zipIdx_map, List.filter_map, List.length_map,
    ← List.countP_eq_length_filter]
  nth_rewrite 2 [← List.zipIdx_map_fst 0 (steps.take n)]
  rw [List.countP_map]
  rfl

/-- The requests of the first steps expect as many replies as these steps do. -/
theorem length_requested {steps : List Step} {h : List Event} {n : ℕ}
    (hs : sends h = (steps.take n).mapIdx Step.send) :
    (requested h).length = (steps.take n).countP Step.expectReply := by
  rw [requested, hs, ← List.countP_eq_length_filter, List.mapIdx_eq_zipIdx_map, List.countP_map]
  nth_rewrite 2 [← List.zipIdx_map_fst 0 (steps.take n)]
  rw [List.countP_map]
  rfl

namespace Tracks

variable {steps : List Step} {h : List Event} {s : Session}

/-- **The replies accepted** are as many as the steps behind the cursor that expect one. -/
theorem length_accepted (t : Tracks steps h s) :
    (accepted h).length = (steps.take s.index).countP Step.expectReply := by
  rw [← t.answered.length_eq, length_due]

/-- The replies requested are those accepted, and the one awaited. -/
theorem length_requested (t : Tracks steps h s) :
    (requested h).length = (accepted h).length + if s.awaiting then 1 else 0 := by
  rw [Session.length_requested t.sends_eq, t.length_accepted, issued]
  cases ha : s.awaiting with
  | false => rfl
  | true =>
      obtain ⟨step, hs, he⟩ := t.awaiting ha
      obtain ⟨hlt, rfl⟩ := List.getElem?_eq_some_iff.mp hs
      rw [if_pos rfl, List.take_succ_eq_append_getElem hlt, List.countP_append,
        List.countP_singleton, if_pos he, if_pos rfl]

/-- **One reply is outstanding while it is awaited**, and none otherwise. -/
theorem outstanding (t : Tracks steps h s) :
    outstanding h = if s.awaiting then 1 else 0 := by
  rw [Session.outstanding, t.length_requested]
  omega

/-- The requests handed out have consecutive positions. -/
theorem map_index_sends (t : Tracks steps h s) :
    (sends h).map Send.index = List.range (sends h).length := by
  rw [t.sends_eq]
  apply List.ext_getElem
  · simp
  · intro i h₁ h₂
    simp [Step.send]

/-- Every request carries the encoded frame of its step. -/
theorem of_mem_sends (t : Tracks steps h s) {x : Send} (hx : x ∈ sends h) :
    ∃ step, steps[x.index]? = some step ∧ x = step.send x.index := by
  rw [t.sends_eq] at hx
  obtain ⟨i, hi, rfl⟩ := List.mem_mapIdx.mp hx
  refine ⟨(steps.take s.issued)[i], ?_, rfl⟩
  rw [List.getElem_take]
  exact List.getElem?_eq_getElem (Nat.lt_of_lt_of_le hi (List.length_take_le' _ _))

end Tracks

/-! ### What the session says about itself -/

/-- The session asks to wait exactly while it waits for a reply. -/
theorem nextAction_eq_awaitingReply_iff (s : Session) :
    s.nextAction.1 = .awaitingReply ↔ s.awaiting = true := by
  obtain ⟨ha, hn⟩ | ⟨ha, -, hn⟩ | ⟨ha, hlt, hn⟩ := s.nextAction_cases <;> simp [hn, ha]

/-- The session reports its end exactly where it is finished. -/
theorem nextAction_eq_finished_iff (s : Session) :
    s.nextAction.1 = .finished ↔ s.isFinished = true := by
  obtain ⟨ha, hn⟩ | ⟨ha, hle, hn⟩ | ⟨ha, hlt, hn⟩ := s.nextAction_cases
  · simp [hn, isFinished, ha]
  · simp [hn, isFinished, ha, hle]
  · have : ¬ s.steps.length ≤ s.index := by omega
    simp [hn, isFinished, this]

/-- One call never moves the cursor back. -/
theorem index_le_call (s : Session) (c : Call) : s.index ≤ (s.call c).2.index := by
  cases c with
  | nextAction =>
      obtain ⟨-, hn⟩ | ⟨-, -, hn⟩ | ⟨-, hlt, hn⟩ := s.nextAction_cases
      · exact Nat.le_of_eq (by rw [call, hn])
      · exact Nat.le_of_eq (by rw [call, hn])
      · rw [call, hn, issue_index]
        split <;> omega
  | onReply f =>
      obtain ⟨e, hr⟩ | ⟨-, hlt, -, hr⟩ := s.onReply_cases f
      · exact Nat.le_of_eq (by rw [call, hr])
      · rw [call, hr, advance_index]
        omega

/-- No sequence of calls moves the cursor back. -/
theorem index_le_runCalls (s : Session) (cs : List Call) :
    s.index ≤ (s.runCalls cs).2.index := by
  induction cs generalizing s with
  | nil => exact Nat.le_refl _
  | cons c cs ih => exact Nat.le_trans (s.index_le_call c) (ih _)

/-- Calls made one after the other lead where all of them together do. -/
theorem runCalls_append_snd (s : Session) (cs cs' : List Call) :
    (s.runCalls (cs ++ cs')).2 = ((s.runCalls cs).2.runCalls cs').2 := by
  induction cs generalizing s with
  | nil => rfl
  | cons c cs ih => exact ih _

/-- A request behind another waits for the reply of the step before it, if that expects one. -/
theorem send_succ {steps : List Step} {calls : List Call} {pre post : List Event} {x : Send}
    {i : ℕ} (hrun : ((new steps).runCalls calls).1 = pre ++ .action (.send x) :: post)
    (hx : x.index = i + 1) :
    ∃ step, steps[i]? = some step ∧
      (step.expect = .nothing ∨ ∃ f, (i, f) ∈ accepted pre ∧ step.Accepts f) := by
  obtain ⟨y, hy, -, -, hanswered⟩ := send_after_replies hrun
  obtain ⟨hlt, -⟩ := List.getElem?_eq_some_iff.mp hy
  have hi : i < steps.length := by omega
  refine ⟨steps[i], List.getElem?_eq_getElem hi, ?_⟩
  by_cases he : steps[i].expectReply = true
  · have hdue : (i, steps[i]) ∈ due steps x.index :=
      mem_due.mpr ⟨by omega, List.getElem?_eq_getElem hi, he⟩
    obtain ⟨⟨j, f⟩, hmem, rfl, hf⟩ := exists_of_mem_left hanswered hdue
    exact .inr ⟨f, hmem, hf⟩
  · exact .inl (by simpa [Step.expectReply] using he)

/-- **The trace law.** For every list of steps and every sequence of calls with arbitrary
replies: the requests carry the positions 0, 1, 2, … and the encoded frames of their steps;
a request waits for the reply of the step before it; at most one reply is outstanding, and
`next_action` says so exactly while it is; `next_action` says that the session is finished
exactly when `is_finished` does; the replies accepted are as many as the steps below
`progress` that expect one, and `progress` never decreases. -/
theorem trace_law (steps : List Step) (calls : List Call) :
    let h := ((new steps).runCalls calls).1
    let s := ((new steps).runCalls calls).2
    (sends h).map Send.index = List.range (sends h).length ∧
    (∀ x ∈ sends h, ∃ step, steps[x.index]? = some step ∧ x.bytes = step.frame.encode) ∧
    (∀ pre x post i, h = pre ++ .action (.send x) :: post → x.index = i + 1 →
      ∃ step, steps[i]? = some step ∧
        (step.expect = .nothing ∨ ∃ f, (i, f) ∈ accepted pre ∧ step.Accepts f)) ∧
    (accepted h).length ≤ (requested h).length ∧ outstanding h ≤ 1 ∧
    (s.nextAction.1 = .awaitingReply ↔ outstanding h = 1) ∧
    (s.nextAction.1 = .finished ↔ s.isFinished = true) ∧
    (accepted h).length = (steps.take s.progress.1).countP Step.expectReply ∧
    ∀ more, s.progress.1 ≤ ((new steps).runCalls (calls ++ more)).2.progress.1 := by
  intro h s
  have t : Tracks steps h s := tracks_runCalls steps calls
  refine ⟨t.map_index_sends, ?_, ?_, ?_, ?_, ?_, s.nextAction_eq_finished_iff, ?_, ?_⟩
  · intro x hx
    obtain ⟨step, hstep, heq⟩ := t.of_mem_sends hx
    exact ⟨step, hstep, by rw [heq]; rfl⟩
  · intro pre x post i hrun hx
    exact send_succ hrun hx
  · rw [t.length_requested]
    exact Nat.le_add_right _ _
  · rw [t.outstanding]
    split <;> omega
  · rw [nextAction_eq_awaitingReply_iff, t.outstanding]
    cases s.awaiting <;> simp
  · exact t.length_accepted
  · intro more
    rw [runCalls_append_snd]
    exact index_le_runCalls s more

end Session

end Stcbsl
