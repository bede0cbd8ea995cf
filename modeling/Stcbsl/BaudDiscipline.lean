import Stcbsl.RunReport

/-!
# The Baud Rate of a Run

A planned session raises the rate of the link behind the baud probe, drops back for the
commit, and raises it again behind it. Any call may fail in between, and a run may stop
anywhere. In every run the frames of the negotiation are written at the handshake rate and
everything else happens at the transfer rate; the rate changes only when the last frame has
left the wire; and no reply holds a byte of an earlier rate.

## The discipline

All of this is asked of the events of a run one by one (`Disciplined`), with the history before
each, so that it holds of a run that breaks off as well. The rate of the wire is what the
last successful `set_baud` says (`baudAfter`), and the rate of the handshake before the first of
them. A frame has left the wire (`SentOut`) when it was written whole and flushed, and drained
where the configuration asks for that.

## The invariants

At the head of the loop the rate is the one that the next request expects (`AtRate`), and the
receiver holds no byte of an earlier rate (`Course.recent`), since every change of the rate
comes with a new receiver. Where the rate changes is known of every plan (`switches_of_plan`);
no other property of a plan is used.

## Main results

* `Course.atRate`, `Course.recent` — the invariants at the head of the loop.
* `baud_discipline` — the discipline, for every plan, wire and clock.
-/

namespace Stcbsl.Driver

open Traced Stc89

variable {drain : DrainConfig} {s₀ s : Session} {rx : Receiver} {h : List Event}

/-! ### The discipline -/

/-- The last frame written is `bytes`, written whole, flushed, and drained where the wire is
to be drained. -/
def SentOut (drain : DrainConfig) (bytes : Bytes) (h : List Event) : Prop :=
  ∃ h₁ h₂, h = h₁ ++ .wire (.writeAll bytes) (.ok ()) :: .wire .flush (.ok ()) ::
    (scriptDrain drain ++ h₂) ∧ writeCalls h₂ = []

/-- The rate at which a step's frame is to be written: the handshake rate for the two frames
of the baud negotiation, the transfer rate behind it. -/
def AtItsRate (job : Job) (opts : SessionOptions) (step : Step) (baud : UInt32) : Prop :=
  if step.frame.cmd = cmdBaudProbe ∨ step.frame.cmd = cmdBaudCommit then
    baud = opts.handshakeBaud
  else job ≠ .identify → baud = opts.transferBaud

/-- **The discipline**, event by event, on a wire that starts at the handshake rate. -/
def Disciplined (job : Job) (opts : SessionOptions) (steps : List Step) (drain : DrainConfig)
    (h : List Event) : Event → Prop
  -- a frame is that of the last request, written at its rate
  | .wire (.writeAll bytes) _ =>
      ∃ k, ∃ step ∈ steps[k]?, (lastRequest h).map Prod.fst = some (step.send k) ∧
        bytes = step.frame.encode ∧
        AtItsRate job opts step (baudAfter opts.handshakeBaud h)
  -- the rate changes behind the frame of the last request, or before it and behind another
  | .wire (.setBaud b) _ =>
      job ≠ .identify ∧ ∃ x held, lastRequest h = some (x, held) ∧
        (x.retuneAfterSend = some b ∧ SentOut drain x.bytes (since Event.isRequest h) ∨
          x.retuneBeforeSend = some b ∧ writeCalls (since Event.isRequest h) = [] ∧
            ∃ bytes, SentOut drain bytes h)
  | .read _ => job ≠ .identify ∧ baudAfter opts.handshakeBaud h = opts.transferBaud
  -- a reply was read since the rate was last changed
  | .session (.reply _ f _) held => f.encode ++ held <:+ readBytes (since Event.isRetune h)
  | _ => True

/-! ### Sent out -/

/-- With nothing more written, the last frame written stays the last. -/
theorem SentOut.append {bytes : Bytes} {t : List Event} (hs : SentOut drain bytes h)
    (ht : writeCalls t = []) : SentOut drain bytes (h ++ t) := by
  obtain ⟨h₁, h₂, rfl, hw⟩ := hs
  exact ⟨h₁, h₂ ++ t, by simp, by rw [writeCalls_append, hw, ht]; rfl⟩

/-- What has happened before the last frame written does not matter. -/
theorem SentOut.prepend {bytes : Bytes} (hs : SentOut drain bytes h) (t : List Event) :
    SentOut drain bytes (t ++ h) := by
  obtain ⟨h₁, h₂, rfl, hw⟩ := hs
  exact ⟨t ++ h₁, h₂, by simp, hw⟩

/-- Behind the pause the frame is out. -/
theorem sentOut_scriptSettle (drain : DrainConfig) (x : Send) :
    SentOut drain x.bytes (scriptBefore x ++ scriptWrite x ++ scriptSettle drain) := by
  refine ⟨scriptBefore x ++ [.log (.step x.label x.bytes)], scriptPause drain, ?_,
    (idle_scriptPause drain).writeCalls⟩
  rw [scriptWrite, scriptSettle]
  simp

/-- Behind a script that raises the rate the frame is out. -/
theorem sentOut_script {x : Send} {b : UInt32} (hx : x.retuneAfterSend = some b) :
    SentOut drain x.bytes (script drain x) := by
  rw [script, scriptAfter, hx, Option.elim_some, ← List.append_assoc]
  exact (sentOut_scriptSettle drain x).append rfl

/-! ### The rate -/

/-- In front of a request the rate is changed to the one it asks for, if any. -/
theorem baudAfter_scriptBefore (x : Send) (b : UInt32) :
    baudAfter b (scriptBefore x) = x.retuneBeforeSend.getD b := by
  rw [scriptBefore]
  cases x.retuneBeforeSend <;> rfl

/-- Where a script leaves the rate. -/
theorem baudAfter_script (drain : DrainConfig) (x : Send) (b : UInt32) :
    baudAfter b (script drain x) =
      x.retuneAfterSend.getD (x.retuneBeforeSend.getD b) := by
  rw [script, baudAfter_append, baudAfter_append, baudAfter_scriptBefore, scriptAfter]
  cases x.retuneAfterSend with
  | none => rfl
  | some b' => simp [baudAfter, Event.newBaud]

/-- **At the head of the loop**: the handshake rate before the first step and the transfer
rate behind it, and before the second step the frame of the first is out. -/
structure AtRate (opts : SessionOptions) (drain : DrainConfig) (k : ℕ) (h : List Event) :
    Prop where
  baud : baudAfter opts.handshakeBaud h =
    if k = 0 then opts.handshakeBaud else opts.transferBaud
  sentOut : k = 1 → ∃ bytes, SentOut drain bytes h

/-- Waiting changes nothing. -/
theorem AtRate.append {opts : SessionOptions} {k : ℕ} {t : List Event}
    (hat : AtRate opts drain k h) (ht : ∀ e ∈ t, e.newBaud = none) (hw : writeCalls t = []) :
    AtRate opts drain k (h ++ t) where
  baud := by rw [baudAfter_append, baudAfter_of_forall ht, hat.baud]
  sentOut hone := by
    obtain ⟨bytes, hout⟩ := hat.sentOut hone
    exact ⟨bytes, hout.append hw⟩

/-- **Each request of a plan** leaves the rate where the next one expects it. -/
theorem AtRate.script {opts : SessionOptions} {k : ℕ} {step : Step}
    (hat : AtRate opts drain k h) (hk : Switches opts k step) :
    AtRate opts drain (k + 1) (h ++ Driver.script drain (step.send k)) where
  baud := by
    rw [if_neg (Nat.succ_ne_zero k), baudAfter_append, baudAfter_script]
    cases hk with
    | probe reload => rfl
    | commit reload => rfl
    | later hlater =>
        show (step.retuneAfterSend.getD (step.retuneBeforeSend.getD _)) = _
        rw [hlater.after, hlater.before, hat.baud]
        rfl
  sentOut hone := by
    obtain rfl : k = 0 := Nat.succ.inj hone
    cases hk with
    | probe reload => exact ⟨_, (sentOut_script rfl).prepend h⟩

/-- The request at the cursor does. -/
theorem AtRate.asked {opts : SessionOptions} (hat : AtRate opts drain s.index h)
    (hlt : s.index < s.steps.length) (hk : Switches opts s.index s.steps[s.index])
    (rx : Receiver) :
    AtRate opts drain (s.index + 1)
      (h ++ Driver.asked s hlt rx :: Driver.script drain (request s hlt)) := by
  have hsame : AtRate opts drain s.index (h ++ [Driver.asked s hlt rx]) :=
    hat.append (by simp [Driver.asked, Event.newBaud]) rfl
  rw [List.append_cons]
  exact hsame.script hk

/-- The rate at the head of the loop, in a run of a plan. -/
theorem Course.atRate {opts : SessionOptions} {steps : List Step}
    (hswitch : ∀ {k step}, steps[k]? = some step → Switches opts k step)
    (c : Course (.new steps) drain s rx h) : AtRate opts drain s.index h := by
  induction c with
  | start => exact ⟨rfl, fun hone => by cases hone⟩
  | @silent s rx h c hlt he ih =>
      rw [Session.issue_index, he]
      exact ih.asked hlt (hswitch (c.getElem?_index rfl hlt)) rx
  | @answered s s' rx rx' h t f c hlt hheard hacc hs' ih =>
      rw [Course.answered_index hlt hacc hs', List.append_assoc, ← List.cons_append,
        ← List.append_assoc]
      refine (ih.asked hlt (hswitch (c.getElem?_index rfl hlt)) rx).append ?_ ?_
      · intro e he
        rcases List.mem_append.mp he with he | he
        · exact hheard.quiet.newBaud e he
        · rw [List.mem_singleton.mp he]
          rfl
      · rw [writeCalls_append, hheard.quiet.writeCalls]
        rfl

/-! ### Bytes of the present rate -/

/-- A script that leaves the rate alone. -/
theorem newBaud_script {x : Send} (hb : x.retuneBeforeSend = none)
    (ha : x.retuneAfterSend = none) : ∀ e ∈ script drain x, e.newBaud = none := by
  rw [script, scriptBefore, scriptAfter, hb, ha]
  simp [scriptWrite, Event.newBaud]

/-- Behind a request, the receiver holds only bytes of the present rate. -/
theorem recent_asked (drain : DrainConfig) (hlt : s.index < s.steps.length)
    (hrecent : rx.buf <:+ readBytes (since Event.isRetune h)) :
    (receiverFor (request s hlt) rx).buf <:+ readBytes
      (since Event.isRetune (h ++ asked s hlt rx :: script drain (request s hlt))) := by
  cases hb : (request s hlt).retuneBeforeSend with
  | some b =>
      rw [receiverFor, hb]
      exact List.nil_suffix
  | none =>
      cases ha : (request s hlt).retuneAfterSend with
      | some b =>
          rw [receiverFor, hb, ha]
          exact List.nil_suffix
      | none =>
          have hkeep : ∀ e ∈ asked s hlt rx :: script drain (request s hlt),
              Event.isRetune e = false := by
            intro e he
            rcases List.mem_cons.mp he with rfl | he
            · rfl
            · rw [Event.isRetune, newBaud_script hb ha e he]
              rfl
          rw [receiverFor, hb, ha, since_append hkeep, readBytes_append, readBytes_asked,
            List.append_nil]
          exact hrecent

/-- Waiting keeps it so. -/
theorem Heard.recent {rx' : Receiver} {t : List Event} {f : Frame} (hh : Heard rx t f rx')
    (hrecent : rx.buf <:+ readBytes (since Event.isRetune h)) :
    f.encode ++ rx'.buf <:+ readBytes (since Event.isRetune (h ++ t)) := by
  have hkeep : ∀ e ∈ t, Event.isRetune e = false := by
    intro e he
    rw [Event.isRetune, hh.quiet.newBaud e he]
    rfl
  obtain ⟨p, hp⟩ := hrecent
  obtain ⟨d, hd, -⟩ := hh.located
  refine ⟨p ++ d, ?_⟩
  rw [since_append hkeep, readBytes_append, ← hp, List.append_assoc p rx.buf, hd]
  simp

/-- **At the head of the loop** the receiver holds only bytes of the present rate. -/
theorem Course.recent (c : Course s₀ drain s rx h) :
    rx.buf <:+ readBytes (since Event.isRetune h) := by
  induction c with
  | start => exact List.nil_suffix
  | silent c hlt he ih => exact recent_asked drain hlt ih
  | @answered s s' rx rx' h t f c hlt hheard hacc hs' ih =>
      have hrecent := hheard.recent (recent_asked drain hlt ih)
      have hreply : ∀ e ∈ [Event.session (.reply s.index f (.ok ())) rx'.buf],
          Event.isRetune e = false := by simp [Event.isRetune, Event.newBaud]
      rw [← List.cons_append, ← List.cons_append, ← List.append_assoc, ← List.append_assoc,
        since_append hreply, readBytes_append]
      refine List.IsSuffix.trans (List.suffix_append f.encode rx'.buf) ?_
      simpa [readBytes, Event.bytesRead] using hrecent

/-! ### Every run -/

variable {job : Job} {opts : SessionOptions} {steps : List Step}

/-- Before a step that changes the rate ahead of its frame, the last frame is out. -/
theorem AtRate.sentOut_of_before {k : ℕ} {step : Step} {b : UInt32}
    (hat : AtRate opts drain k h) (hk : Switches opts k step)
    (hb : step.retuneBeforeSend = some b) : ∃ bytes, SentOut drain bytes h := by
  cases hk with
  | probe reload => cases hb
  | commit reload => exact hat.sentOut rfl
  | later hlater =>
      rw [hlater.before] at hb
      cases hb

/-- Each step finds its rate. -/
theorem AtRate.atItsRate {k : ℕ} {step : Step} (hat : AtRate opts drain k h)
    (hk : Switches opts k step) (hp : Planned step) :
    AtItsRate job opts step
      (step.retuneBeforeSend.getD (baudAfter opts.handshakeBaud h)) := by
  rw [AtItsRate]
  cases hk with
  | probe reload =>
      rw [if_pos (.inl rfl)]
      exact hat.baud
  | commit reload =>
      rw [if_pos (.inr rfl)]
      rfl
  | later hlater =>
      have hcmd : ¬ (step.frame.cmd = cmdBaudProbe ∨ step.frame.cmd = cmdBaudCommit) := by
        rw [hp.cmd, Phase.command_eq_baud_iff]
        exact not_or.mpr ⟨hlater.notProbe, hlater.notCommit⟩
      rw [if_neg hcmd, hlater.before]
      exact fun _ => hat.baud

/-- Sending a request is disciplined, if the rates it sets are in order. -/
theorem disciplined_sends (c : Course (.new steps) drain s rx h)
    (hlt : s.index < s.steps.length)
    (hbefore : ∀ b, s.steps[s.index].retuneBeforeSend = some b →
      job ≠ .identify ∧ ∃ bytes, SentOut drain bytes h)
    (hrate : AtItsRate job opts s.steps[s.index]
      (s.steps[s.index].retuneBeforeSend.getD (baudAfter opts.handshakeBaud h)))
    (hafter : ∀ b, s.steps[s.index].retuneAfterSend = some b → job ≠ .identify) :
    GuardsFrom (Disciplined job opts steps drain) h
      (asked s hlt rx :: script drain (request s hlt)) := by
  refine guardsFrom_cons.mpr ⟨trivial, guardsFrom_script (fun _ _ => trivial)
    (fun _ _ => trivial) (fun _ => trivial) (fun _ => trivial) ?_ ?_ ?_⟩
  · intro b hb
    obtain ⟨hjob, bytes, hout⟩ := hbefore b hb
    have hcalls : writeCalls (since Event.isRequest (h ++ [asked s hlt rx])) = [] := by
      rw [since_asked hlt rx h rfl]
      rfl
    exact ⟨hjob, _, _, lastRequest_asked hlt rx h rfl, .inr ⟨hb, hcalls, bytes, hout.append rfl⟩⟩
  · rw [← List.append_cons]
    refine ⟨s.index, _, c.getElem?_index rfl hlt, ?_, rfl, ?_⟩
    · rw [lastRequest_asked hlt rx h (idle_script drain _).1.sessionHistory]
      rfl
    · have hbaud : baudAfter opts.handshakeBaud (h ++ asked s hlt rx ::
          (scriptBefore (request s hlt) ++
            [.log (.step (request s hlt).label (request s hlt).bytes)])) =
          s.steps[s.index].retuneBeforeSend.getD (baudAfter opts.handshakeBaud h) := by
        rw [List.append_cons, baudAfter_append, baudAfter_append, baudAfter_append,
          baudAfter_scriptBefore]
        rfl
      rw [hbaud]
      exact hrate
  · intro b hb
    have hsession : sessionHistory (scriptBefore (request s hlt) ++ scriptWrite (request s hlt) ++
        scriptSettle drain) = [] := by
      rw [sessionHistory_append, sessionHistory_append, (idle_scriptBefore _).sessionHistory,
        (idle_scriptSettle drain).sessionHistory]
      rfl
    have hout : SentOut drain (request s hlt).bytes (since Event.isRequest
        (h ++ asked s hlt rx :: (scriptBefore (request s hlt) ++ scriptWrite (request s hlt) ++
          scriptSettle drain))) := by
      rw [since_asked hlt rx h hsession]
      exact sentOut_scriptSettle drain _
    rw [← List.append_cons]
    exact ⟨hafter b hb, _, _, lastRequest_asked hlt rx h hsession, .inl ⟨hb, hout⟩⟩

/-- Passing on a reply is disciplined. -/
theorem disciplined_reply (c : Course s₀ drain s rx h) (hlt : s.index < s.steps.length)
    {t : List Event} {f : Frame} {rx' : Receiver} (r : Except SessionError Unit)
    (hh : Heard (receiverFor (request s hlt) rx) t f rx') :
    Disciplined job opts steps drain
      (h ++ asked s hlt rx :: (script drain (request s hlt) ++ t))
      (.session (.reply s.index f r) rx'.buf) := by
  have hrecent := hh.recent (recent_asked drain hlt c.recent)
  rw [List.append_assoc, List.cons_append] at hrecent
  exact hrecent

/-- A call that fails is held to the same as one that succeeds. -/
theorem disciplined_fails {op : WireOp} {io : IoError}
    (hd : Disciplined job opts steps drain h (.wire op (.ok ()))) :
    Disciplined job opts steps drain h (.wire op (.error io)) := by
  cases op <;> exact hd

/-- Waiting is disciplined at the transfer rate. -/
theorem disciplined_quiet {t : List Event} (hjob : job ≠ .identify)
    (hbaud : baudAfter opts.handshakeBaud h = opts.transferBaud) (hq : Quiet t) :
    GuardsFrom (Disciplined job opts steps drain) h t := by
  intro pre e post heq
  have hpre : ∀ e ∈ pre, e.newBaud = none := by
    intro e' he'
    exact hq.newBaud e' (by rw [heq]; exact List.mem_append_left _ he')
  have he := hq e (by rw [heq]; exact List.mem_append_right _ List.mem_cons_self)
  cases e with
  | read _ => exact ⟨hjob, by rw [baudAfter_append, hbaud, baudAfter_of_forall hpre]⟩
  | now _ | log _ => trivial
  | wire _ _ | sleep _ | session _ _ => cases he

/-- An identify session reads nothing and leaves the rate alone. -/
theorem guarded_identify (opts : SessionOptions) (drain : DrainConfig) :
    Guarded (.new [runStep opts]) drain (Disciplined .identify opts [runStep opts] drain) := by
  have hstep : ∀ {s rx h}, Course (.new [runStep opts]) drain s rx h →
      ∀ hlt : s.index < s.steps.length, s.steps[s.index] = runStep opts := by
    intro s rx h c hlt
    exact List.mem_singleton.mp (List.mem_of_getElem? (c.getElem?_index rfl hlt))
  refine ⟨?_, disciplined_fails, ?_, fun c hlt _ _ _ r hh => disciplined_reply c hlt r hh,
    fun _ => trivial⟩
  · intro s rx h c hlt
    refine disciplined_sends c hlt ?_ ?_ ?_
    · intro b hb
      rw [hstep c hlt] at hb
      cases hb
    · rw [hstep c hlt, AtItsRate, if_neg (by simp [runStep, runFrame, cmdRun, cmdBaudProbe,
        cmdBaudCommit, Frame.host])]
      exact fun hjob => absurd rfl hjob
    · intro b hb
      rw [hstep c hlt] at hb
      cases hb
  · intro s rx h c hlt he
    rw [hstep c hlt] at he
    cases he

/-- A session that negotiates the rate keeps the discipline. -/
theorem guarded_negotiation {info : TargetInfo} (hjob : job ≠ .identify)
    (hplan : plan info job opts = .ok steps) (drain : DrainConfig) :
    Guarded (.new steps) drain (Disciplined job opts steps drain) := by
  have hswitch : ∀ {k step}, steps[k]? = some step → Switches opts k step :=
    fun hk => switches_of_plan hjob hplan hk
  refine ⟨?_, disciplined_fails, ?_, fun c hlt _ _ _ r hh => disciplined_reply c hlt r hh,
    fun _ => trivial⟩
  · intro s rx h c hlt
    have hk := c.getElem?_index rfl hlt
    have hat := c.atRate hswitch
    refine disciplined_sends c hlt ?_ ?_ fun _ _ => hjob
    · intro b hb
      exact ⟨hjob, hat.sentOut_of_before (hswitch hk) hb⟩
    · exact hat.atItsRate (hswitch hk) (planned_of_mem hplan _ (List.mem_of_getElem? hk))
  · intro s rx h c hlt he t hq
    have hnext := (c.atRate hswitch).asked hlt (hswitch (c.getElem?_index rfl hlt)) rx
    exact disciplined_quiet hjob hnext.baud hq

/-- **The baud discipline.** For every planned session and whatever the wire and the clock
do: the two frames of the baud negotiation are written at the handshake rate; every read and
every later write happens at the transfer rate; an identify session sets no rate; a rate is
set only when the last frame was written whole, flushed and, where the wire is to be
drained, drained; and no reply holds a byte read before the rate was last set. -/
theorem baud_discipline {info : TargetInfo} (hplan : plan info job opts = .ok steps)
    (w : World) (drain : DrainConfig) (fuel : ℕ) :
    GuardsFrom (Disciplined job opts steps drain) [] (runFresh w drain fuel steps).2 := by
  by_cases hjob : job = .identify
  · subst hjob
    cases hplan
    exact (guarded_identify opts drain).run rfl w fuel
  · exact (guarded_negotiation hjob hplan drain).run rfl w fuel

/-- `baud_discipline` for an erase session of the captured target. -/
theorem baud_discipline_bench :
    GuardsFrom (Disciplined (.erase (some 2)) .default benchErase .default) []
      (runFresh (playback benchReplies) .default 20 benchErase).2 :=
  baud_discipline plan_benchErase _ _ _

end Stcbsl.Driver
