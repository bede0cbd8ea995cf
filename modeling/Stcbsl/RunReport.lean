import Stcbsl.Course

/-!
# What the Result of a Run Means

The driver reports success or an error, and an error is wrapped when it leaves a half-written
flash behind. Both reports are exact, whatever the wire and the clock do.

## Success

At the head of the loop two things are known of the course of a run. The strings handed to the
wire are the requests behind the cursor, each once and in order (`Course.writes`). The accepted
replies lie in the stream that was read, in order and without overlap, and the receiver holds
what was read behind them (`Course.stream`). A run that returns `Ok` is a course up to the last
step, so both say what success means.

## Errors

An error is wrapped by the session as it is when the error is found. `Ending.of_error` says
which session that is, and that it has seen its own history; what the flag of that session says
about the history is known from `Stcbsl.ReplyLaw`. A run may also end in a failed write: the
request was handed out, so the session counts it, and it need not have reached the wire.

## Main results

* `run_ok_sound` — `Ok` means that every request was written once and in order, and that
  every reply due was received, and `unreachable!` is never reached.
* `run_error_exact` — an error is reported as an indeterminate flash exactly when a write
  request was issued and the last block's ack was not accepted.
-/

namespace Stcbsl.Driver

open Traced Session Stc89

variable {steps : List Step} {drain : DrainConfig} {s : Session} {rx : Receiver}
  {h : List Event}

/-! ### What is written -/

/-- The byte strings of the requests. -/
def requests (steps : List Step) : List Bytes := steps.map fun step => step.frame.encode

/-- The requests of one more step. -/
theorem requests_take_succ {n : ℕ} (h : n < steps.length) :
    requests (steps.take (n + 1)) = requests (steps.take n) ++ [steps[n].frame.encode] := by
  rw [requests, List.take_succ_eq_append_getElem h, List.map_append]
  rfl

/-- Sending a request hands its bytes to the wire once. -/
theorem writeCalls_asked (drain : DrainConfig) (rx : Receiver)
    (hlt : s.index < s.steps.length) :
    writeCalls (asked s hlt rx :: script drain (request s hlt)) =
      [s.steps[s.index].frame.encode] := by
  rw [← List.singleton_append, writeCalls_append, (script_readings drain _).2.2.1]
  rfl

/-- Sending a request writes its bytes once, where no call fails. -/
theorem written_asked (drain : DrainConfig) (rx : Receiver) (hlt : s.index < s.steps.length) :
    written (asked s hlt rx :: script drain (request s hlt)) =
      [s.steps[s.index].frame.encode] := by
  rw [← List.singleton_append, written_append, (script_readings drain _).2.2.2]
  rfl

/-- Sending a request reads nothing. -/
theorem readBytes_asked (drain : DrainConfig) (rx : Receiver) (hlt : s.index < s.steps.length) :
    readBytes (asked s hlt rx :: script drain (request s hlt)) = [] := by
  rw [← List.singleton_append, readBytes_append, (script_readings drain _).2.1]
  rfl

/-- Waiting writes nothing. -/
theorem Quiet.written {t : List Event} (hq : Quiet t) : Driver.written t = [] :=
  List.filterMap_eq_nil_iff.mpr fun e he => by simpa [Event.isWrite] using hq.isWrite e he

/-- **At the head of the loop**, the requests behind the cursor have been written, each once
and in order, and nothing else. -/
theorem Course.writes (c : Course (.new steps) drain s rx h) :
    writeCalls h = requests (steps.take s.index) ∧ written h = requests (steps.take s.index) := by
  induction c with
  | start => exact ⟨rfl, rfl⟩
  | @silent s rx h c hlt he ih =>
      obtain rfl := c.tracks.1.steps_eq
      rw [writeCalls_append, written_append, ih.1, ih.2, writeCalls_asked, written_asked,
        issue_index, he, if_neg Bool.false_ne_true, requests_take_succ hlt]
      exact ⟨rfl, rfl⟩
  | @answered s s' rx rx' h t f c hlt hheard hacc hs' ih =>
      obtain rfl := c.tracks.1.steps_eq
      rw [writeCalls_append, written_append, ih.1, ih.2, List.append_assoc, ← List.cons_append,
        writeCalls_append, written_append, writeCalls_asked, written_asked, writeCalls_append,
        written_append, hheard.quiet.writeCalls, hheard.quiet.written,
        Course.answered_index hlt hacc hs', requests_take_succ hlt]
      exact ⟨rfl, rfl⟩

/-! ### What is read -/

/-- The wire images of the accepted replies. -/
def acceptedBytes (h : List Event) : List Bytes :=
  (accepted (sessionHistory h)).map fun a => a.2.encode

/-- In front of a reply the receiver is kept, or a new one is taken. -/
theorem receiverFor_cases (x : Send) (rx : Receiver) :
    receiverFor x rx = rx ∨ receiverFor x rx = .new := by
  rw [receiverFor]
  split
  · exact .inl rfl
  · exact .inr rfl

/-- Whatever receiver the reply is read with, it holds the end of the read stream. -/
theorem stream_receiverFor {p : Bytes} {ws : List Bytes} (x : Send)
    (hp : readBytes h = p ++ rx.buf) (hw : InOrder ws p) :
    ∃ p', readBytes h = p' ++ (receiverFor x rx).buf ∧ InOrder ws p' := by
  rcases receiverFor_cases x rx with hrx | hrx <;> rw [hrx]
  · exact ⟨p, hp, hw⟩
  · exact ⟨p ++ rx.buf, by rw [hp]; exact (List.append_nil _).symm, hw.append _⟩

/-- **At the head of the loop**, the accepted replies lie in the read stream in order and
without overlap, and the receiver holds what was read behind them. -/
theorem Course.stream (c : Course (.new steps) drain s rx h) :
    ∃ p, readBytes h = p ++ rx.buf ∧ InOrder (acceptedBytes h) p := by
  induction c with
  | start => exact ⟨[], rfl, trivial⟩
  | @silent s rx h c hlt he ih =>
      obtain ⟨p, hp, hw⟩ := ih
      obtain ⟨p', hp', hw'⟩ := stream_receiverFor (request s hlt) hp hw
      refine ⟨p', ?_, ?_⟩
      · rw [readBytes_append, readBytes_asked, List.append_nil, hp']
      · rw [acceptedBytes, sessionHistory_append, sessionHistory_asked, accepted_append,
          accepted_action, List.append_nil]
        exact hw'
  | @answered s s' rx rx' h t f c hlt hheard hacc hs' ih =>
      obtain ⟨p, hp, hw⟩ := ih
      obtain ⟨p', hp', hw'⟩ := stream_receiverFor (request s hlt) hp hw
      obtain ⟨d, hd, -⟩ := hheard.located
      refine ⟨p' ++ d ++ f.encode, ?_, ?_⟩
      · rw [readBytes_append, List.append_assoc, ← List.cons_append, readBytes_append,
          readBytes_asked, List.nil_append, readBytes_append, hp', List.append_assoc,
          ← List.append_assoc _ (readBytes t), hd]
        simp [readBytes, Event.bytesRead]
      · rw [acceptedBytes, sessionHistory_append, List.append_assoc, ← List.cons_append,
          sessionHistory_append, sessionHistory_asked, sessionHistory_append,
          hheard.quiet.sessionHistory, accepted_append, List.map_append]
        exact hw'.concat d f.encode

/-! ### Success -/

/-- The write steps of a flash plan stand behind the negotiation, the link tests and the
erase. -/
theorem getElem?_writeStep {info : TargetInfo} {image : Bytes} {writeOptions : Bool}
    {opts : SessionOptions} (hplan : plan info (.flash image writeOptions) opts = .ok steps)
    {i : ℕ} (hi : i < 2 * eraseBlocksFor image.length) :
    steps[7 + i]? = some (writeStep opts (2 * eraseBlocksFor image.length) i
      (block image (eraseBlocksFor image.length) i)) := by
  obtain ⟨reload, -, -, rfl⟩ := plan_flash hplan
  have hfront : ((List.range linkTestRepeats).map (linkTestStep info opts)).length = 4 := rfl
  rw [Nat.add_comm 7 i, List.getElem?_cons_succ, List.getElem?_cons_succ,
    List.getElem?_append_right (by omega), hfront, show i + 5 - 4 = i + 1 by omega,
    List.getElem?_cons_succ, programSteps, List.append_assoc,
    List.getElem?_append_left (by rw [writeSteps_eq]; simpa using hi), writeSteps_eq,
    List.getElem?_map, List.getElem?_range hi]
  rfl

/-- A write step is satisfied by the acknowledgement of its block, and by nothing else. -/
theorem eq_of_writeStep_accepts {opts : SessionOptions} {total i : ℕ} {block : Bytes} {f : Frame}
    (h : (writeStep opts total i block).Accepts f) : f = Frame.mcu 0x80 [blockAck block] := by
  obtain ⟨hdir, hcmd, hpayload⟩ := h
  obtain ⟨dir, cmd, payload⟩ := f
  simp only at hdir hcmd hpayload
  rw [hdir, hcmd, hpayload]
  rfl

/-- A run that returns `Ok` is the course of a session to its end, and the action that says
so. -/
theorem runFresh_ok {w : World} {fuel : ℕ} {t : List Event}
    (hrun : runFresh w drain fuel steps = (.ok s, t)) :
    ∃ rx h, Course (.new steps) drain s rx h ∧ s.index = steps.length ∧
      t = h ++ [.session (.action .finished) rx.buf] := by
  obtain ⟨s', rx, h, tail, c, hend, rfl⟩ := runFresh_course hrun
  cases hend with
  | finished hle =>
      obtain ⟨tr, -⟩ := c.tracks
      exact ⟨rx, h, c, Nat.le_antisymm tr.index_le (tr.steps_eq ▸ hle), rfl⟩

/-- **Success of the driver is sound.** Whatever the wire and the clock do, a run on a fresh
session never reaches `unreachable!`; and if it returns `Ok`, the byte strings passed to
`write_all` are the requests, each once and in order, and a fitting reply was received for
every step that expects one, the replies lying in the read stream in step order and without
overlap. For a planned flash that is, for every single block, an `0x80` frame with the
block's sum. -/
theorem run_ok_sound (w : World) (drain : DrainConfig) (fuel : ℕ) (steps : List Step) :
    (runFresh w drain fuel steps).1 ≠ .error .unreachable ∧
    ∀ s t, runFresh w drain fuel steps = (.ok s, t) →
      writeCalls t = requests steps ∧
      List.Forall₂ Answers (due steps steps.length) (accepted (sessionHistory t)) ∧
      InOrder (acceptedBytes t) (readBytes t) ∧
      ∀ info image writeOptions opts,
        plan info (.flash image writeOptions) opts = .ok steps →
        ∀ i < 2 * eraseBlocksFor image.length,
          (7 + i, Frame.mcu 0x80 [blockAck (block image (eraseBlocksFor image.length) i)]) ∈
            accepted (sessionHistory t) := by
  refine ⟨?_, ?_⟩
  · obtain ⟨s, rx, h, tail, c, hend, -⟩ :=
      runFresh_course (r := (runFresh w drain fuel steps).1) (t := (runFresh w drain fuel steps).2)
        rfl
    intro hbad
    rw [hbad] at hend
    cases hend with
    | unheard hlt he hq hstop =>
        rcases hstop with hstop | ⟨e, -, hstop⟩ <;> cases hstop
  · intro s t hrun
    obtain ⟨rx, h, c, hindex, rfl⟩ := runFresh_ok hrun
    obtain ⟨tr, -⟩ := c.tracks
    have hhist : accepted (sessionHistory (h ++ [.session (.action .finished) rx.buf])) =
        accepted (sessionHistory h) := by
      rw [sessionHistory_append, accepted_append]
      exact List.append_nil _
    have hread : readBytes (h ++ [.session (.action .finished) rx.buf]) = readBytes h := by
      rw [readBytes_append]
      exact List.append_nil _
    obtain ⟨p, hp, hw⟩ := c.stream
    refine ⟨?_, ?_, ?_, ?_⟩
    · rw [writeCalls_append, c.writes.1, hindex, List.take_length]
      exact List.append_nil _
    · rw [hhist, ← hindex]
      exact tr.answered
    · rw [acceptedBytes, hhist, hread, hp]
      exact hw.append _
    · intro info image writeOptions opts hplan i hi
      have hstep := getElem?_writeStep hplan hi
      obtain ⟨hlt, -⟩ := List.getElem?_eq_some_iff.mp hstep
      obtain ⟨f, hf, hacc⟩ := tr.mem_accepted (by omega) hstep rfl
      rw [hhist, ← eq_of_writeStep_accepts hacc]
      exact hf

/-- A read. -/
def Event.isRead : Event → Bool
  | read _ => true
  | _ => false

/-- A wire on which every call succeeds and the `k`-th read returns the `k`-th of the chunks;
each event takes a millisecond. -/
def playback (chunks : List Bytes) : World where
  answer _ _ := .ok ()
  read h := .ok ⟨(chunks.getD (h.countP Event.isRead) []).take 512, List.length_take_le _ _⟩
  now h := h.length * 1000000

/-- The replies of the captured target to an erase session. -/
def benchReplies : List Bytes :=
  [(Frame.mcu 0x8F [0xFF, 0xFD, 0x00, 0x06, 0xA0, 0x81]).encode,
    (Frame.mcu 0x8E [0xFF, 0xFD, 0x00, 0x06, 0xA0]).encode,
    (Frame.mcu 0x80 []).encode, (Frame.mcu 0x80 []).encode,
    (Frame.mcu 0x80 []).encode, (Frame.mcu 0x80 []).encode,
    (Frame.mcu 0x80 [0xF0, 0x02, 0xC4, 0x2B, 0x01, 0x83, 0x74]).encode]

/-- `run_ok_sound` for an erase session of the captured target. -/
theorem run_ok_sound_bench :
    ∃ s t, runFresh (playback benchReplies) .default 20 benchErase = (.ok s, t) ∧
      writeCalls t = requests benchErase := by
  have hok : (runFresh (playback benchReplies) .default 20 benchErase).1.isOk = true := by
    decide +kernel
  match hrun : runFresh (playback benchReplies) .default 20 benchErase with
  | (.ok s, t) => exact ⟨s, t, rfl, ((run_ok_sound _ _ _ _).2 s t hrun).1⟩
  | (.error _, _) =>
      rw [hrun] at hok
      cases hok

/-! ### Errors -/

/-- A plain error is wrapped exactly where the session says that the flash is indeterminate. -/
theorem wrap_eq_indeterminateFlash_iff {e inner : Error} (he : e.Plain) :
    wrap s e = .indeterminateFlash inner ↔ s.flashIsIndeterminate = true ∧ inner = e := by
  rw [wrap]
  cases s.flashIsIndeterminate with
  | true =>
      simp only [if_true, Error.indeterminateFlash.injEq, true_and]
      exact eq_comm
  | false =>
      simp only [Bool.false_eq_true, if_false, false_and, iff_false]
      exact he inner

/-- What an iteration in which a call on the wire fails adds to the readings of a run. -/
theorem broken_readings {pre post : List Event} {op : WireOp} (io : IoError) (rx : Receiver)
    (hlt : s.index < s.steps.length)
    (hscript : script drain (request s hlt) = pre ++ .wire op (.ok ()) :: post) :
    sessionHistory (asked s hlt rx :: (pre ++ [.wire op (.error io)])) =
        [.action (.send (request s hlt))] ∧
      written (asked s hlt rx :: (pre ++ [.wire op (.error io)])) <+:
        [s.steps[s.index].frame.encode] := by
  obtain ⟨hhist, -, -, hwr⟩ := script_readings drain (request s hlt)
  rw [hscript] at hhist hwr
  refine ⟨?_, ?_⟩
  · rw [sessionHistory_append] at hhist
    rw [← List.singleton_append, sessionHistory_append, sessionHistory_append,
      (List.append_eq_nil_iff.mp hhist).1]
    rfl
  · have hfail : written [.wire op (.error io)] = [] := by cases op <;> rfl
    have hpre : written pre <+: [(request s hlt).bytes] := by
      rw [← hwr, written_append]
      exact List.prefix_append _ _
    rw [← List.singleton_append, written_append, written_append, hfail, List.append_nil]
    exact hpre

/-- What a run that returns an error has done: the session has seen its own history, the
error is wrapped for that session, and what was written with success is a prefix of the
requests. -/
theorem Ending.of_error {e : Error} {tail : List Event} (c : Course (.new steps) drain s rx h)
    (hend : Ending drain s rx (.error (.error e)) tail) :
    ∃ s' e', Tracks steps (sessionHistory (h ++ tail)) s' ∧ e'.Plain ∧ e = wrap s' e' ∧
      written (h ++ tail) <+: requests steps := by
  obtain ⟨tr, ha⟩ := c.tracks
  obtain ⟨-, hwritten⟩ := c.writes
  have hbefore : ∀ hlt : s.index < s.steps.length,
      requests (steps.take s.index) ++ [s.steps[s.index].frame.encode] <+: requests steps := by
    intro hlt
    obtain rfl := tr.steps_eq
    rw [← requests_take_succ hlt]
    exact (List.take_prefix _ _).map _
  cases hend with
  | @broken pre post op io hlt hscript =>
      obtain ⟨hhist, hpre⟩ := broken_readings io rx hlt hscript
      refine ⟨s.issue hlt, .io io, ?_, fun _ he => (by cases he), rfl, ?_⟩
      · rw [sessionHistory_append, hhist]
        exact tr.issue ha hlt
      · rw [written_append, hwritten]
        exact ((List.prefix_append_right_inj _).mpr hpre).trans (hbefore hlt)
  | @unheard t halt hlt he hq hstop =>
      obtain hstop | ⟨e', hplain, hstop⟩ := hstop
      · cases hstop
      · cases hstop
        refine ⟨s.issue hlt, e', ?_, hplain, rfl, ?_⟩
        · rw [sessionHistory_append, ← List.cons_append, sessionHistory_append,
            sessionHistory_asked, hq.sessionHistory]
          exact tr.issue ha hlt
        · rw [written_append, ← List.cons_append, written_append, written_asked, hq.written,
            hwritten]
          exact hbefore hlt
  | @rejected t f rx' e' hlt he hheard hs' =>
      refine ⟨s.issue hlt, .session e', ?_, fun _ he => (by cases he), rfl, ?_⟩
      · rw [sessionHistory_append, List.append_assoc, ← List.cons_append, sessionHistory_append,
          sessionHistory_asked, sessionHistory_append, hheard.quiet.sessionHistory,
          ← List.append_assoc]
        exact (tr.issue ha hlt).append_rejected s.index f e'
      · rw [written_append, List.append_assoc, ← List.cons_append, written_append,
          written_asked, written_append, hheard.quiet.written, hwritten]
        exact hbefore hlt

/-- **The abort report is exact.** For steps whose write steps all expect a reply, and
whatever the wire and the clock do: when a run on a fresh session returns an error, the error
says that the flash is indeterminate exactly if some write request was issued and the reply
of the last write step was not accepted. The wrapped error never says so itself, and the byte
strings written with success are a prefix of the requests. -/
theorem run_error_exact {w : World} {fuel : ℕ} {e : Error} {t : List Event}
    (hwrites : ∀ step ∈ steps, step.phase = .write → step.expectReply = true)
    (hrun : runFresh w drain fuel steps = (.error (.error e), t)) :
    ((∃ inner, e = .indeterminateFlash inner) ↔
      (∃ x ∈ sends (sessionHistory t), x.phase = .write) ∧
        ¬ ∃ k f, rposition Step.isWrite steps = some k ∧
          (k, f) ∈ accepted (sessionHistory t)) ∧
    (∀ inner, e = .indeterminateFlash inner → inner.Plain) ∧
    written t <+: requests steps := by
  obtain ⟨s, rx, h, tail, c, hend, rfl⟩ := runFresh_course hrun
  obtain ⟨s', e', tr, hplain, rfl, hprefix⟩ := hend.of_error c
  refine ⟨?_, ?_, hprefix⟩
  · rw [← tr.flashIsIndeterminate_iff hwrites]
    simp only [wrap_eq_indeterminateFlash_iff hplain, exists_and_left, exists_eq, and_true]
  · intro inner hinner
    obtain ⟨-, rfl⟩ := (wrap_eq_indeterminateFlash_iff hplain).mp hinner
    exact hplain

/-- `run_error_exact` for a single write step on a wire that is gone. -/
theorem run_error_exact_broken :
    ∃ t, runFresh { playback [] with answer := fun _ _ => .error ⟨"broken pipe"⟩ } .default 1
        [writeStep .default 1 0 [0x02]] =
          (.error (.error (.indeterminateFlash (.io ⟨"broken pipe"⟩))), t) ∧
      ∃ x ∈ sends (sessionHistory t), x.phase = .write := by
  have hwrites : ∀ step ∈ [writeStep .default 1 0 [0x02]],
      step.phase = .write → step.expectReply = true := by decide
  have hrun : ∃ t, runFresh { playback [] with answer := fun _ _ => .error ⟨"broken pipe"⟩ }
      .default 1 [writeStep .default 1 0 [0x02]] =
        (.error (.error (.indeterminateFlash (.io ⟨"broken pipe"⟩))), t) := ⟨_, rfl⟩
  obtain ⟨t, ht⟩ := hrun
  exact ⟨t, ht, ((run_error_exact hwrites ht).1.mp ⟨_, rfl⟩).1⟩

end Stcbsl.Driver
