import Stcbsl.Stc89

/-!
# The Protocol Order of a Planned Session

The planner fixes the order of the steps and the session hands them out one by one, waiting
for each reply. Together they keep the protocol order, whatever the caller does: calls may
come in any order, and replies may be wrong, early or repeated.

## Two facts put together

The phases of a plan are those of its job, in the order of the protocol (`phases_of_plan`), and no
phase comes before one of lower rank. The session hands requests out in the order of the list, and
each waits for the replies due to the steps before it (`send_after_replies`). So a request of some
phase waits for the replies of every phase of lower rank, and that is all there is to the
gates of the protocol: no erase before the link tests, no write before the erase, no options before
the last block.

The run step expects no reply, so it is nobody's gate; it stands at the end of every plan and
nothing is handed out behind it.

## Main results

* `accepted_before` — a request waits for the replies of every step before its own.
* `accepted_of_rank_lt` — a request waits for the replies of every phase before its own.
* `protocol_order` — the order of the requests, and what each of them waits for.
-/

namespace Stcbsl

open Session Stc89

/-- In this history, a fitting reply was accepted for every step of a phase in `ps`. -/
def AcceptedAll (steps : List Step) (ps : Phase → Prop) (h : List Event) : Prop :=
  ∀ j step, steps[j]? = some step → ps step.phase → ∃ f, (j, f) ∈ accepted h ∧ step.Accepts f

variable {info : TargetInfo} {job : Job} {opts : SessionOptions} {steps : List Step}

/-- The phase of a planned step, by its position. -/
theorem phase_at (h : plan info job opts = .ok steps) {j : ℕ} {step : Step}
    (hs : steps[j]? = some step) : job.phases[j]? = some step.phase := by
  rw [← phases_of_plan h, List.getElem?_map, hs]
  rfl

/-- A step of lower rank stands before one of higher rank. -/
theorem lt_of_rank_lt (h : plan info job opts = .ok steps) {i j : ℕ} {x y : Step}
    (hx : steps[i]? = some x) (hy : steps[j]? = some y) (hlt : y.phase.rank < x.phase.rank) :
    j < i := by
  by_contra hle
  rcases Nat.lt_or_eq_of_le (Nat.le_of_not_lt hle) with hij | rfl
  · obtain ⟨hi, hx⟩ := List.getElem?_eq_some_iff.mp (phase_at h hx)
    obtain ⟨hj, hy⟩ := List.getElem?_eq_some_iff.mp (phase_at h hy)
    have := List.pairwise_iff_getElem.mp job.pairwise_phases i j hi hj hij
    rw [hx, hy] at this
    omega
  · rw [hx] at hy
    cases hy
    omega

/-- The run step is the last one. -/
theorem run_last (h : plan info job opts = .ok steps) {j : ℕ} {step : Step}
    (hs : steps[j]? = some step) (hrun : step.phase = .run) : j + 1 = steps.length := by
  have hlen : steps.length = job.phases.length := by rw [← phases_of_plan h, List.length_map]
  rw [hlen, ← job.phases_eq_run_iff, phase_at h hs, hrun]

/-- **A request waits for the replies of every step before it**: in the history before the
request of step `i`, a fitting reply was accepted for each step before `i`. -/
theorem accepted_before {calls : List Call} {pre post : List Event} {x : Send} {j : ℕ}
    {step : Step} (h : plan info job opts = .ok steps)
    (hrun : ((Session.new steps).runCalls calls).1 = pre ++ .action (.send x) :: post)
    (hs : steps[j]? = some step) (hj : j < x.index) :
    ∃ f, (j, f) ∈ accepted pre ∧ step.Accepts f := by
  obtain ⟨y, hy, -, -, hanswered⟩ := send_after_replies hrun
  have hne : step.phase ≠ .run := by
    intro hphase
    have hlast := run_last h hs hphase
    obtain ⟨hlt, -⟩ := List.getElem?_eq_some_iff.mp hy
    omega
  have he := (planned_of_mem h step (List.mem_of_getElem? hs)).expectReply.mpr hne
  obtain ⟨⟨i, f⟩, hmem, rfl, hf⟩ := exists_of_mem_left hanswered (mem_due.mpr ⟨hj, hs, he⟩)
  exact ⟨f, hmem, hf⟩

/-- A request waits for the replies of every phase before its own. -/
theorem accepted_of_rank_lt {calls : List Call} {pre post : List Event} {x : Send}
    (h : plan info job opts = .ok steps)
    (hrun : ((Session.new steps).runCalls calls).1 = pre ++ .action (.send x) :: post) :
    AcceptedAll steps (fun p => p.rank < x.phase.rank) pre := by
  intro j step hs hrank
  obtain ⟨y, hy, hx, -⟩ := send_after_replies hrun
  have hphase : x.phase = y.phase := by rw [hx]; rfl
  exact accepted_before h hrun hs (lt_of_rank_lt h hy hs (hphase ▸ hrank))

/-- The requests handed out go through the phases of the job in order. -/
theorem phases_of_sends (h : plan info job opts = .ok steps) (calls : List Call) :
    (sends ((Session.new steps).runCalls calls).1).map Send.phase =
      job.phases.take ((Session.new steps).runCalls calls).2.issued := by
  rw [(tracks_runCalls steps calls).sends_eq, ← phases_of_plan h, ← List.map_take]
  exact List.ext_getElem (by simp) (by simp [Step.send])

/-- Every request is a frame of the host, with the command of its phase. -/
theorem commands_of_sends (h : plan info job opts = .ok steps) (calls : List Call) :
    ∀ x ∈ sends ((Session.new steps).runCalls calls).1,
      ∃ f : Frame, x.bytes = f.encode ∧ f.dir = .hostToMcu ∧ f.cmd = x.phase.command := by
  intro x hx
  rw [(tracks_runCalls steps calls).sends_eq] at hx
  obtain ⟨i, hi, rfl⟩ := List.mem_mapIdx.mp hx
  have hmem := planned_of_mem h _ (List.mem_of_mem_take (List.getElem_mem hi))
  exact ⟨_, rfl, hmem.dir, hmem.cmd⟩

/-- The run request comes last: all others are handed out before it, and none after. -/
theorem sends_of_run {calls : List Call} {pre post : List Event} {x : Send}
    (h : plan info job opts = .ok steps)
    (hrun : ((Session.new steps).runCalls calls).1 = pre ++ .action (.send x) :: post)
    (hphase : x.phase = .run) :
    (sends pre).map Send.phase = job.phasesBeforeRun ∧ sends post = [] := by
  obtain ⟨y, hy, hx, hpre, -⟩ := send_after_replies hrun
  have hlast := run_last h hy (by rw [← hphase, hx]; rfl)
  have hlen : (sends pre).length = x.index := by
    rw [hpre, List.length_mapIdx, List.length_take]
    omega
  have hall := phases_of_sends h calls
  rw [hrun, List.append_cons, sends_append, sends_append, sends_action] at hall
  have hsteps : steps.length = job.phasesBeforeRun.length + 1 := by
    rw [← List.length_map (f := Step.phase), phases_of_plan h, Job.phases, List.length_append]
    rfl
  have hpost : sends post = [] := by
    have hle := congrArg List.length hall
    simp only [List.length_map, List.length_append, List.length_singleton, List.length_take,
      Job.phases] at hle
    exact List.length_eq_zero_iff.mp (by omega)
  refine ⟨?_, hpost⟩
  have hprefix : (sends pre).map Send.phase <+: job.phases := by
    have : (sends pre).map Send.phase <+: (job.phases.take _) :=
      ⟨[x.phase], by rw [← hall, hpost, List.append_nil, List.map_append]; rfl⟩
    exact this.trans (List.take_prefix _ _)
  refine List.IsPrefix.eq_of_length (List.prefix_of_prefix_length_le hprefix
    (List.prefix_append _ _) ?_) ?_ <;> rw [List.length_map] <;> omega

/-- **The protocol order is never violated.** Whatever calls are made on a planned session,
the requests come in the order of the plan, each with the command of its phase. The erase
waits for both echoes and all link-test acks, each write for the erase reply and every ack
before it, the options for every block ack; the run command comes at most once, last, and
after every other reply. -/
theorem protocol_order (hplan : plan info job opts = .ok steps) (calls : List Call) :
    steps.map Step.phase = job.phases ∧
    (sends ((Session.new steps).runCalls calls).1).map Send.phase <+: job.phases ∧
    (∀ x ∈ sends ((Session.new steps).runCalls calls).1,
      ∃ f : Frame, x.bytes = f.encode ∧ f.dir = .hostToMcu ∧ f.cmd = x.phase.command) ∧
    ∀ pre x post, ((Session.new steps).runCalls calls).1 = pre ++ .action (.send x) :: post →
      (x.phase = .erase →
        AcceptedAll steps (fun p => p = .baudProbe ∨ p = .baudCommit ∨ p = .linkTest) pre) ∧
      (x.phase = .write → AcceptedAll steps (fun p => p = .erase) pre ∧
        ∀ j step, steps[j]? = some step → step.phase = .write → j < x.index →
          ∃ f, (j, f) ∈ accepted pre ∧ step.Accepts f) ∧
      (x.phase = .options → AcceptedAll steps (fun p => p = .write) pre) ∧
      (x.phase = .run → AcceptedAll steps (fun p => p ≠ .run) pre ∧
        Phase.run ∉ (sends pre).map Send.phase ∧ sends post = []) := by
  refine ⟨phases_of_plan hplan, ?_, commands_of_sends hplan calls, ?_⟩
  · rw [phases_of_sends hplan]
    exact List.take_prefix _ _
  intro pre x post hrun
  have hrank := accepted_of_rank_lt hplan hrun
  refine ⟨?_, ?_, ?_, ?_⟩
  · intro hx j step hs hp
    refine hrank j step hs ?_
    rcases hp with hp | hp | hp <;> rw [hp, hx] <;> decide
  · intro hx
    refine ⟨fun j step hs hp => hrank j step hs (by rw [hp, hx]; decide), ?_⟩
    intro j step hs _ hj
    exact accepted_before hplan hrun hs hj
  · intro hx j step hs hp
    exact hrank j step hs (by rw [hp, hx]; decide)
  · intro hx
    obtain ⟨hpre, hpost⟩ := sends_of_run hplan hrun hx
    refine ⟨?_, by rw [hpre]; exact job.run_notMem_phasesBeforeRun, hpost⟩
    intro j step hs hne
    obtain ⟨y, hy, hxy, -⟩ := send_after_replies hrun
    obtain ⟨hj, -⟩ := List.getElem?_eq_some_iff.mp hs
    have hlast := run_last hplan hy (by rw [← hx, hxy]; rfl)
    refine accepted_before hplan hrun hs (Nat.lt_of_le_of_ne (by omega) ?_)
    rintro rfl
    rw [hs] at hy
    cases hy
    exact hne (by rw [← hx, hxy]; rfl)

/-- `protocol_order` for an erase session of the captured target, where the caller asks twice
and passes in a wrong reply. -/
theorem protocol_order_bench :
    (sends ((Session.new benchErase).runCalls
      [.nextAction, .onReply runFrame, .nextAction]).1).map Send.phase <+:
        (Job.erase (some 2)).phases :=
  (protocol_order plan_benchErase _).2.1

end Stcbsl
