import Stcbsl.Driver

/-!
# The Course of a Run

A run of the driver is described by what it leaves behind at the head of its loop: `Course`
lists the iterations that can be complete, `Ending` what can follow the last complete one.
Neither mentions the wire or the clock. Every property of a run is an induction over its
course, and a look at its ending. A run may start with any session that awaits no reply, a
fresh one among them.

## Iterations

An iteration that is complete has sent the request at the cursor and was done with it (`silent`,
for a step that expects no reply) or has heard a frame that the session accepts (`answered`).
What is left is five ways to end: the session is finished, a call on the wire fails in the middle
of a script, no frame is heard, the frame that is heard is rejected, or the fuel of the model
runs out. `Action::SetBaud` and `unreachable!` are in neither list, since no session that is
driven by this loop hands such an action out.

## Guards

A property that every event of a run satisfies, given the history before it, need only be
checked for the events of one iteration (`Guarded`); `Guarded.run` makes it a property of runs.

## Main results

* `run_course` — every run is a course and an ending.
* `Course.tracks` — at the head of the loop the session has seen its own history.
* `Guarded.run` — a guard that one iteration of the loop upholds holds in every run.
-/

namespace Stcbsl.Driver

open Traced

/-- The request of the step at the cursor. -/
def request (s : Session) (h : s.index < s.steps.length) : Send :=
  s.steps[s.index].send s.index

/-- The event that hands the request out. -/
def asked (s : Session) (h : s.index < s.steps.length) (rx : Receiver) : Event :=
  .session (.action (.send (request s h))) rx.buf

/-- **Complete iterations.** `Course s₀ drain s rx h`: a run that starts with `s₀` can be at
the head of its loop with session `s`, receiver `rx` and history `h`. -/
inductive Course (s₀ : Session) (drain : DrainConfig) :
    Session → Receiver → List Event → Prop
  | start : Course s₀ drain s₀ .new []
  | silent {s : Session} {rx : Receiver} {h : List Event} (c : Course s₀ drain s rx h)
      (hlt : s.index < s.steps.length) (he : s.steps[s.index].expectReply = false) :
      Course s₀ drain (s.issue hlt) (receiverFor (request s hlt) rx)
        (h ++ asked s hlt rx :: script drain (request s hlt))
  | answered {s s' : Session} {rx rx' : Receiver} {h t : List Event} {f : Frame}
      (c : Course s₀ drain s rx h) (hlt : s.index < s.steps.length)
      (hheard : Heard (receiverFor (request s hlt) rx) t f rx')
      (hacc : s.steps[s.index].Accepts f) (hs' : (s.issue hlt).onReply f = (.ok (), s')) :
      Course s₀ drain s' rx' (h ++ asked s hlt rx :: (script drain (request s hlt) ++
        t ++ [.session (.reply s.index f (.ok ())) rx'.buf]))

/-- **What can follow the last complete iteration**, with the result of the run. -/
inductive Ending (drain : DrainConfig) (s : Session) (rx : Receiver) :
    Except Halt Session → List Event → Prop
  /-- the session is finished -/
  | finished (hle : s.steps.length ≤ s.index) :
      Ending drain s rx (.ok s) [.session (.action .finished) rx.buf]
  /-- a call on the wire fails while the request is sent -/
  | broken {pre post : List Event} {op : WireOp} {io : IoError}
      (hlt : s.index < s.steps.length)
      (hscript : script drain (request s hlt) = pre ++ .wire op (.ok ()) :: post) :
      Ending drain s rx (.error (.error (wrap (s.issue hlt) (.io io))))
        (asked s hlt rx :: (pre ++ [.wire op (.error io)]))
  /-- no frame is heard -/
  | unheard {t : List Event} {halt : Halt} (hlt : s.index < s.steps.length)
      (he : s.steps[s.index].expectReply = true) (hq : Quiet t)
      (hstop : StopsAwaiting (s.issue hlt) halt) :
      Ending drain s rx (.error halt) (asked s hlt rx :: (script drain (request s hlt) ++ t))
  /-- the frame heard is rejected -/
  | rejected {t : List Event} {f : Frame} {rx' : Receiver} {e : SessionError}
      (hlt : s.index < s.steps.length) (he : s.steps[s.index].expectReply = true)
      (hheard : Heard (receiverFor (request s hlt) rx) t f rx')
      (hs' : (s.issue hlt).onReply f = (.error e, s.issue hlt)) :
      Ending drain s rx (.error (.error (wrap (s.issue hlt) (.session e))))
        (asked s hlt rx :: (script drain (request s hlt) ++ t ++
          [.session (.reply s.index f (.error e)) rx'.buf]))
  /-- the fuel of the model is used up -/
  | outOfFuel : Ending drain s rx (.error .outOfFuel) []

variable {steps : List Step} {drain : DrainConfig} {s₀ s : Session} {rx : Receiver}
  {h : List Event}

/-! ### The session at the head of the loop -/

/-- A request asks for a reply as its step does. -/
theorem request_expectReply (hlt : s.index < s.steps.length) :
    (request s hlt).expectReply = s.steps[s.index].expectReply := rfl

/-- What handing out and sending a request adds to the history of the session. -/
theorem sessionHistory_asked (drain : DrainConfig) (rx : Receiver)
    (hlt : s.index < s.steps.length) :
    sessionHistory (asked s hlt rx :: script drain (request s hlt)) =
      [.action (.send (request s hlt))] := by
  rw [← List.singleton_append, sessionHistory_append, (script_readings drain _).1]
  rfl

/-- The last request, while it is being dealt with. -/
theorem lastRequest_asked (hlt : s.index < s.steps.length) (rx : Receiver) (h : List Event)
    {t : List Event} (ht : sessionHistory t = []) :
    lastRequest (h ++ asked s hlt rx :: t) = some (request s hlt, rx.buf) := by
  have hnone : t.filterMap Event.request = [] :=
    List.filterMap_eq_nil_iff.mpr (request_of_sessionHistory ht)
  have hasked : (asked s hlt rx :: t).filterMap Event.request = [(request s hlt, rx.buf)] := by
    rw [← List.singleton_append, List.filterMap_append, hnone]
    rfl
  rw [lastRequest, List.filterMap_append, hasked, List.getLast?_concat]

/-- What has happened since the last request was handed out. -/
theorem since_asked (hlt : s.index < s.steps.length) (rx : Receiver) (h : List Event)
    {t : List Event} (ht : sessionHistory t = []) :
    since Event.isRequest (h ++ asked s hlt rx :: t) = t := by
  refine since_hit rfl fun e he => ?_
  rw [Event.isRequest, request_of_sessionHistory ht e he]
  rfl

/-- At the head of the loop no reply is awaited, and the steps are those of the start. -/
theorem Course.awaiting (h₀ : s₀.awaiting = false) (c : Course s₀ drain s rx h) :
    s.awaiting = false ∧ s.steps = s₀.steps := by
  induction c with
  | start => exact ⟨h₀, rfl⟩
  | silent _ hlt he ih =>
      exact ⟨by rw [Session.issue_awaiting, he], by rw [Session.issue_steps, ih.2]⟩
  | @answered s s' rx rx' h t f _ hlt _ hacc hs' ih =>
      obtain ⟨s'', hs'', -, ha''⟩ := Session.onReply_issue hlt hacc
      have hsteps := (s.issue hlt).onReply_steps f
      rw [hs', Session.issue_steps, ih.2] at hsteps
      rw [hs'] at hs''
      cases hs''
      exact ⟨ha'', hsteps⟩

/-- The step at the cursor is one of those of the start. -/
theorem Course.getElem?_index (h₀ : s₀.awaiting = false) (c : Course s₀ drain s rx h)
    (hlt : s.index < s.steps.length) : s₀.steps[s.index]? = some s.steps[s.index] := by
  rw [← (c.awaiting h₀).2]
  exact List.getElem?_eq_getElem hlt

/-- **The session has seen its own history**, in a run that starts with a fresh one. -/
theorem Course.tracks (c : Course (.new steps) drain s rx h) :
    Session.Tracks steps (sessionHistory h) s ∧ s.awaiting = false := by
  refine ⟨?_, (c.awaiting rfl).1⟩
  induction c with
  | start => exact Session.tracks_new steps
  | @silent s rx h c hlt he t =>
      rw [sessionHistory_append, sessionHistory_asked]
      exact t.issue (c.awaiting rfl).1 hlt
  | @answered s s' rx rx' h t f c hlt hheard hacc hs' tr =>
      have he := hacc.expectReply
      have hi : (s.issue hlt).index = s.index := by rw [Session.issue_index, if_pos he]
      have t' := (tr.issue (c.awaiting rfl).1 hlt).onReply f
      rw [hs', hi] at t'
      rw [sessionHistory_append, List.append_assoc, ← List.cons_append, sessionHistory_append,
        sessionHistory_asked, sessionHistory_append, hheard.quiet.sessionHistory,
        ← List.append_assoc]
      exact t'

/-- The session behind an accepted reply stands before the next step. -/
theorem Course.answered_index {s' : Session} {f : Frame} (hlt : s.index < s.steps.length)
    (hacc : s.steps[s.index].Accepts f) (hs' : (s.issue hlt).onReply f = (.ok (), s')) :
    s'.index = s.index + 1 := by
  obtain ⟨s'', hs'', hi, -⟩ := Session.onReply_issue hlt hacc
  rw [hs'] at hs''
  cases hs''
  exact hi

/-! ### Every run is a course and an ending -/

/-- Behind the last step a run ends. -/
theorem run_of_le {w : World} {fuel : ℕ} (ha : s.awaiting = false)
    (hle : s.steps.length ≤ s.index) :
    run w drain (fuel + 1) s rx h = (.ok s, [.session (.action .finished) rx.buf]) := by
  rw [run, Session.nextAction_of_le ha hle]
  rfl

/-- With a reply outstanding a run hits `unreachable!` at once. -/
theorem run_of_awaiting {w : World} {fuel : ℕ} (ha : s.awaiting = true) :
    run w drain (fuel + 1) s rx h =
      (.error .unreachable, [.session (.action .awaitingReply) rx.buf]) := by
  rw [run, Session.nextAction, if_pos ha]
  rfl

/-- Before its last step a run sends the request at the cursor. -/
theorem run_of_lt {w : World} {fuel : ℕ} (ha : s.awaiting = false)
    (hlt : s.index < s.steps.length) :
    run w drain (fuel + 1) s rx = (do
      emit (asked s hlt rx)
      let rx ← transmit w drain (s.issue hlt) (request s hlt) rx
      if !(request s hlt).expectReply then run w drain fuel (s.issue hlt) rx
      else do
        let (frame, rx) ← awaitReply w (s.issue hlt) (request s hlt) fuel rx
        let (result, session') := (s.issue hlt).onReply frame
        emit (.session (.reply (s.issue hlt).index frame result) rx.buf)
        match result with
        | .error e => Prog.fail (.error (wrap session' (.session e)))
        | .ok () => run w drain fuel session' rx) := by
  rw [run, Session.nextAction_of_lt ha hlt]
  rfl

/-- **Every run is a course and an ending**, whatever the wire and the clock do. The induction is
on the fuel. An iteration goes on to the next one behind a request that expects no reply, and
behind a reply that is accepted; it ends the run where a call fails in the script of the request,
where no frame is heard, and where the reply is rejected. -/
theorem run_course {w : World} {fuel : ℕ} {r : Except Halt Session} {t : List Event}
    (h₀ : s₀.awaiting = false) (c : Course s₀ drain s rx h)
    (hr : run w drain fuel s rx h = (r, t)) :
    ∃ s' rx' h' tail, Course s₀ drain s' rx' h' ∧ Ending drain s' rx' r tail ∧
      h ++ t = h' ++ tail := by
  induction fuel generalizing s rx h r t with
  | zero =>
      obtain ⟨rfl, rfl⟩ := Prod.mk.inj hr
      exact ⟨s, rx, h, [], c, .outOfFuel, rfl⟩
  | succ fuel ih =>
      obtain ⟨ha, -⟩ := c.awaiting h₀
      by_cases hle : s.steps.length ≤ s.index
      · rw [run_of_le ha hle] at hr
        obtain ⟨rfl, rfl⟩ := Prod.mk.inj hr
        exact ⟨s, rx, h, _, c, .finished hle, rfl⟩
      have hlt : s.index < s.steps.length := Nat.lt_of_not_le hle
      rw [run_of_lt ha hlt] at hr
      obtain ⟨t₁, hr₁, rfl⟩ := emit_bind hr
      rcases transmit_follows w drain (s.issue hlt) (request s hlt) rx
        (h ++ [asked s hlt rx]) with hsent | ⟨pre, _, post, _, _, hscript, hfail, hsent⟩
      · obtain ⟨_, -, hbad⟩ | ⟨rx₁, _, t₂, hsent', hr₂, rfl⟩ := Prog.bind_inv hr₁
        · rw [hsent] at hbad
          cases hbad
        obtain ⟨hrx, rfl⟩ := Prod.mk.inj (hsent.symm.trans hsent')
        cases hrx
        by_cases he : s.steps[s.index].expectReply = true
        · rw [if_neg (by rw [request_expectReply, he]; decide)] at hr₂
          have hends := awaitReply_awaits w (s.issue hlt) (request s hlt) fuel
            (receiverFor (request s hlt) rx)
            (h ++ [asked s hlt rx] ++ script drain (request s hlt))
          obtain ⟨halt, rfl, hwait⟩ | ⟨⟨f, rx₂⟩, t₃, t₄, hwait, hr₃, rfl⟩ := Prog.bind_inv hr₂
          · rw [Awaits, hwait] at hends
            exact ⟨s, rx, h, _, c, .unheard hlt he hends.1 hends.2, rfl⟩
          rw [Awaits, hwait] at hends
          have hi : (s.issue hlt).index = s.index := by rw [Session.issue_index, if_pos he]
          obtain ⟨e, hreply⟩ | ⟨-, hlt', hacc, hreply⟩ := (s.issue hlt).onReply_cases f
          · simp only [hreply, hi] at hr₃
            obtain ⟨t₅, hr₄, rfl⟩ := emit_bind hr₃
            obtain ⟨rfl, rfl⟩ := Prod.mk.inj hr₄
            exact ⟨s, rx, h, _, c, .rejected hlt he hends hreply, by simp⟩
          · have hacc' : s.steps[s.index].Accepts f := by simpa [hi] using hacc
            simp only [hreply, hi] at hr₃
            obtain ⟨t₅, hr₄, rfl⟩ := emit_bind hr₃
            obtain ⟨s', rx', h', tail, c', hend, htail⟩ :=
              ih (c.answered hlt hends hacc' hreply) (by simpa using hr₄)
            exact ⟨s', rx', h', tail, c', hend, by rw [← htail]; simp⟩
        · rw [if_pos (by rw [request_expectReply]; simpa using he)] at hr₂
          obtain ⟨s', rx', h', tail, c', hend, htail⟩ :=
            ih (c.silent hlt (by simpa using he)) (by simpa using hr₂)
          exact ⟨s', rx', h', tail, c', hend, by rw [← htail]; simp⟩
      · obtain ⟨op, io, rfl, rfl, rfl⟩ := hfail
        rw [Prog.bind_of_error hsent] at hr₁
        obtain ⟨rfl, rfl⟩ := Prod.mk.inj hr₁
        exact ⟨s, rx, h, _, c, .broken hlt hscript, rfl⟩

/-- A run on a fresh session. -/
theorem runFresh_course {w : World} {fuel : ℕ} {r : Except Halt Session} {t : List Event}
    (hr : runFresh w drain fuel steps = (r, t)) :
    ∃ s rx h tail, Course (.new steps) drain s rx h ∧ Ending drain s rx r tail ∧
      t = h ++ tail :=
  run_course rfl .start hr

/-! ### Guards of a run -/

/-- **One iteration upholds the guard `φ`**: handing out and sending a request, with or
without a failed call, waiting, passing on a reply, and finishing. -/
structure Guarded (s₀ : Session) (drain : DrainConfig) (φ : List Event → Event → Prop) :
    Prop where
  sends : ∀ {s rx h}, Course s₀ drain s rx h → ∀ hlt : s.index < s.steps.length,
    GuardsFrom φ h (asked s hlt rx :: script drain (request s hlt))
  fails : ∀ {h op io}, φ h (.wire op (.ok ())) → φ h (.wire op (.error io))
  quiet : ∀ {s rx h}, Course s₀ drain s rx h → ∀ hlt : s.index < s.steps.length,
    s.steps[s.index].expectReply = true → ∀ t, Quiet t →
      GuardsFrom φ (h ++ asked s hlt rx :: script drain (request s hlt)) t
  reply : ∀ {s rx h}, Course s₀ drain s rx h → ∀ hlt : s.index < s.steps.length,
    ∀ t f rx' r, Heard (receiverFor (request s hlt) rx) t f rx' →
      φ (h ++ asked s hlt rx :: (script drain (request s hlt) ++ t))
        (.session (.reply s.index f r) rx'.buf)
  finished : ∀ {s rx h}, Course s₀ drain s rx h →
    φ h (.session (.action .finished) rx.buf)

namespace Guarded

variable {φ : List Event → Event → Prop}

/-- The guard holds throughout an iteration that ends with a reply. -/
theorem replied (g : Guarded s₀ drain φ) (c : Course s₀ drain s rx h)
    (hlt : s.index < s.steps.length) (he : s.steps[s.index].expectReply = true)
    {t : List Event} {f : Frame} {rx' : Receiver} (r : Except SessionError Unit)
    (hheard : Heard (receiverFor (request s hlt) rx) t f rx') :
    GuardsFrom φ h (asked s hlt rx :: (script drain (request s hlt) ++ t ++
      [.session (.reply s.index f r) rx'.buf])) := by
  rw [← List.cons_append, ← List.cons_append]
  refine guardsFrom_append.mpr ⟨guardsFrom_append.mpr ⟨g.sends c hlt, ?_⟩,
    guardsFrom_cons.mpr ⟨?_, guardsFrom_nil _⟩⟩
  · exact g.quiet c hlt he t hheard.quiet
  · exact g.reply c hlt _ _ _ r hheard

/-- **The guard holds at the head of the loop.** -/
theorem course (g : Guarded s₀ drain φ) (c : Course s₀ drain s rx h) : GuardsFrom φ [] h := by
  induction c with
  | start => exact guardsFrom_nil []
  | silent c hlt he ih => exact guardsFrom_append.mpr ⟨ih, g.sends c hlt⟩
  | answered c hlt hheard hacc hs' ih =>
      exact guardsFrom_append.mpr ⟨ih, g.replied c hlt hacc.expectReply _ hheard⟩

/-- **The guard holds behind the last complete iteration.** -/
theorem ending (g : Guarded s₀ drain φ) (c : Course s₀ drain s rx h)
    {r : Except Halt Session} {tail : List Event} (hend : Ending drain s rx r tail) :
    GuardsFrom φ h tail := by
  cases hend with
  | finished hle => exact guardsFrom_cons.mpr ⟨g.finished c, guardsFrom_nil _⟩
  | broken hlt hscript =>
      have hsends := g.sends c hlt
      rw [hscript, ← List.cons_append] at hsends
      rw [← List.cons_append]
      exact hsends.fail g.fails
  | unheard hlt he hq hstop =>
      rw [← List.cons_append]
      exact guardsFrom_append.mpr ⟨g.sends c hlt, g.quiet c hlt he _ hq⟩
  | rejected hlt he hheard hs' => exact g.replied c hlt he _ hheard
  | outOfFuel => exact guardsFrom_nil h

/-- **A guard that one iteration upholds holds in every run.** -/
theorem run (g : Guarded s₀ drain φ) (h₀ : s₀.awaiting = false) (w : World) (fuel : ℕ) :
    GuardsFrom φ [] (Driver.run w drain fuel s₀ .new []).2 := by
  obtain ⟨s, rx, h, tail, c, hend, ht⟩ := run_course (w := w) h₀ .start rfl
  rw [List.nil_append] at ht
  rw [ht]
  exact guardsFrom_append.mpr ⟨g.course c, g.ending c hend⟩

end Guarded

end Stcbsl.Driver
