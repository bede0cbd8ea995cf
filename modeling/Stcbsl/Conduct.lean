import Stcbsl.Cadence
import Stcbsl.Command
import Stcbsl.Loops
import Stcbsl.RunReport

/-!
# The Conduct of the Program

What the program writes on a port, from the command line to the last byte: pulses, and then an
initial segment of the requests that are planned for the target that answered. It reports
success for a session only where every request was written and every reply that was due has come.

## The extent of a run

How far a run has come is two numbers (`Extent`): so many requests have been written with
success, and so many have been handed to the wire. The two differ by one at most, since a write
that fails is the last thing that happens to the wire. The replies that were accepted are due to
requests before the last one written. An error of the run is wrapped for the session that the
extent tells of.

## The phases of a session

Without an answer there is no request. A handshake that fails has written nothing but pulses,
and one that answers leaves the rest to a run of the plan for the target that it found
(`session_phases`); the run is one from the start, against the world as the handshake leaves
it.

## Main results

* `run_extent` — how far a run has come, whatever became of it.
* `handshake_halts` — how a handshake can fail.
* `main_conduct` — what any command line, any machine and any target can lead to.
-/

namespace Stcbsl

open Traced Session

namespace Driver

variable {steps : List Step} {drain : DrainConfig} {s : Session} {rx : Receiver}
  {h t : List Event}

/-! ### How far a run has come -/

/-- **The extent of a run**: `a` requests have been written with success and `b` handed to the
wire, all of them in order. -/
structure Extent (steps : List Step) (t : List Event) (s : Session) (a b : ℕ) : Prop where
  tracks : Tracks steps (sessionHistory t) s
  written_eq : written t = requests (steps.take a)
  writeCalls_eq : writeCalls t = requests (steps.take b)
  le : a ≤ b
  le_sends : b ≤ (sends (sessionHistory t)).length
  /-- at most the last request has not been written -/
  sends_le : (sends (sessionHistory t)).length ≤ a + 1
  accepted_lt : ∀ k f, (k, f) ∈ accepted (sessionHistory t) → k < a

/-- As many requests have been handed out as the session has issued. -/
theorem length_sends (tr : Tracks steps (sessionHistory t) s) :
    (sends (sessionHistory t)).length = min s.issued steps.length := by
  rw [tr.sends_eq, List.length_mapIdx, List.length_take]

/-- What is written with success has been handed to the wire. -/
theorem written_sublist (h : List Event) : (written h).Sublist (writeCalls h) := by
  induction h with
  | nil => exact .slnil
  | cons e h ih =>
      rcases e with ⟨_ | bytes | _ | _, _ | _⟩ | _ | _ | _ | _ | _
      case wire.writeAll.ok => exact ih.cons_cons bytes
      case wire.writeAll.error => exact ih.cons bytes
      all_goals exact ih

/-- Of a script that breaks off, the request was written, or handed to the wire, or neither. -/
theorem broken_writes {pre post : List Event} {op : WireOp} (io : IoError) (rx : Receiver)
    (hlt : s.index < s.steps.length)
    (hscript : script drain (request s hlt) = pre ++ .wire op (.ok ()) :: post) :
    ∃ a b, a ≤ b ∧ b ≤ 1 ∧
      written (asked s hlt rx :: (pre ++ [.wire op (.error io)])) =
        [s.steps[s.index].frame.encode].take a ∧
      writeCalls (asked s hlt rx :: (pre ++ [.wire op (.error io)])) =
        [s.steps[s.index].frame.encode].take b := by
  obtain ⟨-, hwritten⟩ := broken_readings io rx hlt hscript
  have hcalls : writeCalls (asked s hlt rx :: (pre ++ [.wire op (.error io)])) <+:
      [s.steps[s.index].frame.encode] := by
    rw [← writeCalls_asked drain rx hlt, hscript, ← List.cons_append, ← List.cons_append,
      List.append_cons _ _ post, writeCalls_append, writeCalls_append, writeCalls_append,
      ← writeCalls_append]
    have hsame : writeCalls [.wire op (.error io)] = writeCalls [.wire op (.ok ())] := by
      cases op <;> rfl
    rw [writeCalls_append, hsame]
    exact List.prefix_append _ _
  exact ⟨_, _, (written_sublist _).length_le, hcalls.length_le, List.prefix_iff_eq_take.mp hwritten,
    List.prefix_iff_eq_take.mp hcalls⟩

/-- Behind the requests before the cursor, the one at the cursor, or nothing. -/
theorem requests_take_add {s : Session} {n : ℕ} (hlt : s.index < s.steps.length) (hn : n ≤ 1) :
    requests (s.steps.take s.index) ++ [s.steps[s.index].frame.encode].take n =
      requests (s.steps.take (s.index + n)) := by
  obtain rfl | rfl : n = 0 ∨ n = 1 := by omega
  · exact List.append_nil _
  · exact (requests_take_succ hlt).symm

/-- Issuing a request makes one more. -/
theorem issued_issue (s : Session) (hlt : s.index < s.steps.length) :
    (s.issue hlt).issued = s.index + 1 := by
  rw [issued, Session.issue_awaiting, Session.issue_index]
  split <;> simp_all

/-- The extent of a run that ends while the request at the cursor is dealt with. -/
theorem Course.extent {tail : List Event} {a b : ℕ} (c : Course (.new steps) drain s rx h)
    (hlt : s.index < s.steps.length) (hab : a ≤ b) (hb : b ≤ 1)
    (tr : Tracks steps (sessionHistory (h ++ tail)) (s.issue hlt))
    (hwritten : written tail = [s.steps[s.index].frame.encode].take a)
    (hcalls : writeCalls tail = [s.steps[s.index].frame.encode].take b)
    (hacc : accepted (sessionHistory tail) = []) :
    Extent steps (h ++ tail) (s.issue hlt) (s.index + a) (s.index + b) := by
  obtain ⟨trh, -⟩ := c.tracks
  obtain rfl := trh.steps_eq
  refine ⟨tr, ?_, ?_, by omega, ?_, ?_, ?_⟩
  · rw [written_append, c.writes.2, hwritten, requests_take_add hlt (hab.trans hb)]
  · rw [writeCalls_append, c.writes.1, hcalls, requests_take_add hlt hb]
  · rw [length_sends tr, issued_issue]
    omega
  · rw [length_sends tr, issued_issue]
    omega
  · intro k f hf
    rw [sessionHistory_append, accepted_append, hacc, List.append_nil] at hf
    exact Nat.lt_add_right a (trh.of_mem_accepted hf).1

/-- The extent of a run at the head of its loop. -/
theorem Course.extent_head (c : Course (.new steps) drain s rx h) :
    Extent steps h s s.index s.index := by
  obtain ⟨tr, ha⟩ := c.tracks
  refine ⟨tr, c.writes.2, c.writes.1, Nat.le_refl _, ?_, ?_, ?_⟩
  · rw [length_sends tr, issued, ha]
    exact Nat.le_min.mpr ⟨Nat.le_refl _, tr.index_le⟩
  · rw [length_sends tr, issued, ha]
    exact (Nat.min_le_left _ _).trans (Nat.le_succ _)
  · exact fun k f hf => (tr.of_mem_accepted hf).1

/-- The extent of a run that is finished: the last action brings nothing. -/
theorem Course.extent_finished (c : Course (.new steps) drain s rx h) :
    Extent steps (h ++ [.session (.action .finished) rx.buf]) s s.index s.index := by
  have hhist : sessionHistory (h ++ [.session (.action .finished) rx.buf]) =
      sessionHistory h ++ [.action .finished] := sessionHistory_append _ _
  have hext := c.extent_head
  have hconcat := c.tracks.1.append_action (a := .finished) fun _ hbad => (by cases hbad)
  have hsends : sends (sessionHistory h ++ [.action .finished]) = sends (sessionHistory h) := by
    rw [sends_append, sends_action, List.append_nil]
  refine ⟨hhist ▸ hconcat, ?_, ?_, hext.le, ?_, ?_, ?_⟩
  · rw [written_append, hext.written_eq]
    exact List.append_nil _
  · rw [writeCalls_append, hext.writeCalls_eq]
    exact List.append_nil _
  · rw [hhist, hsends]
    exact hext.le_sends
  · rw [hhist, hsends]
    exact hext.sends_le
  · intro k f hf
    rw [hhist, accepted_append, accepted_action, List.append_nil] at hf
    exact hext.accepted_lt k f hf

/-- The extent of a run that ends behind a request, with nothing more written or accepted. -/
theorem Course.extent_sent {tail : List Event} (c : Course (.new steps) drain s rx h)
    (hlt : s.index < s.steps.length) (hwritten : written tail = [])
    (hcalls : writeCalls tail = []) (hacc : accepted (sessionHistory tail) = [])
    (tr : Tracks steps (sessionHistory h ++ [.action (.send (request s hlt))] ++
      sessionHistory tail) (s.issue hlt)) :
    Extent steps (h ++ asked s hlt rx :: (script drain (request s hlt) ++ tail)) (s.issue hlt)
      (s.index + 1) (s.index + 1) := by
  have hhist : sessionHistory (asked s hlt rx :: (script drain (request s hlt) ++ tail)) =
      [.action (.send (request s hlt))] ++ sessionHistory tail := by
    rw [← List.cons_append, sessionHistory_append, sessionHistory_asked]
  refine c.extent hlt (Nat.le_refl 1) (Nat.le_refl 1) ?_ ?_ ?_ ?_
  · rwa [sessionHistory_append, hhist, ← List.append_assoc]
  · rw [← List.cons_append, written_append, written_asked, hwritten]
    rfl
  · rw [← List.cons_append, writeCalls_append, writeCalls_asked, hcalls]
    rfl
  · rw [hhist, accepted_append, hacc, accepted_action]
    rfl

/-- **How far a run has come**, whatever became of it: an error is wrapped for the session that
the extent tells of, and with `Ok` all requests have been written. -/
theorem run_extent {w : World} {fuel : ℕ} {r : Except Halt Session}
    (hr : runFresh w drain fuel steps = (r, t)) :
    r ≠ .error .unreachable ∧ ∃ s a b, Extent steps t s a b ∧
      (∀ e, r = .error (.error e) → ∃ e' : Error, e'.Plain ∧ e = wrap s e') ∧
      ∀ s', r = .ok s' → a = steps.length ∧
        List.Forall₂ Answers (due steps steps.length) (accepted (sessionHistory t)) := by
  obtain ⟨s, rx, h, tail, c, hend, rfl⟩ := runFresh_course hr
  obtain ⟨tr, ha⟩ := c.tracks
  have hissue := fun hlt => tr.issue ha hlt
  cases hend with
  | finished hle =>
      have hindex : s.index = steps.length := Nat.le_antisymm tr.index_le (tr.steps_eq ▸ hle)
      refine ⟨by simp, s, _, _, c.extent_finished, fun _ hbad => (by cases hbad),
        fun _ _ => ⟨hindex, ?_⟩⟩
      rw [sessionHistory_append, accepted_append, ← hindex]
      exact (List.append_nil (accepted (sessionHistory h))).symm ▸ tr.answered
  | @broken pre post op io hlt hscript =>
      obtain ⟨a, b, hab, hb, hwritten, hcalls⟩ := broken_writes io rx hlt hscript
      obtain ⟨hhist, -⟩ := broken_readings io rx hlt hscript
      refine ⟨by simp, _, _, _, c.extent hlt hab hb ?_ hwritten hcalls ?_, ?_,
        fun _ hbad => (by cases hbad)⟩
      · rw [sessionHistory_append, hhist]
        exact hissue hlt
      · rw [hhist]
        rfl
      · intro e he
        cases he
        exact ⟨_, fun _ hbad => (by cases hbad), rfl⟩
  | @unheard t halt hlt he hq hstop =>
      have hnone := hq.sessionHistory
      refine ⟨?_, _, _, _, c.extent_sent hlt hq.written hq.writeCalls (by rw [hnone]; rfl) ?_, ?_,
        fun _ hbad => (by cases hbad)⟩
      · rintro hbad
        cases hbad
        obtain hstop | ⟨e', -, hstop⟩ := hstop <;> cases hstop
      · rw [hnone, List.append_nil]
        exact hissue hlt
      · intro e he
        cases he
        obtain hstop | ⟨e', hplain, hstop⟩ := hstop
        · cases hstop
        · cases hstop
          exact ⟨e', hplain, rfl⟩
  | @rejected t f rx' e' hlt he hheard hs' =>
      have hq := hheard.quiet
      have hhist : sessionHistory (t ++ [.session (.reply s.index f (.error e')) rx'.buf]) =
          [.reply s.index f (.error e')] := by
        rw [sessionHistory_append, hq.sessionHistory]
        rfl
      rw [List.append_assoc]
      refine ⟨by simp, _, _, _, c.extent_sent hlt ?_ ?_ (by rw [hhist]; rfl) ?_, ?_,
        fun _ hbad => (by cases hbad)⟩
      · rw [written_append, hq.written]
        rfl
      · rw [writeCalls_append, hq.writeCalls]
        rfl
      · rw [hhist]
        exact (hissue hlt).append_rejected s.index f e'
      · intro e he
        cases he
        exact ⟨_, fun _ hbad => (by cases hbad), rfl⟩
  | outOfFuel =>
      rw [List.append_nil]
      exact ⟨by simp, s, _, _, c.extent_head, fun _ hbad => (by cases hbad),
        fun _ hbad => (by cases hbad)⟩

/-- A paced history writes nothing but pulses. -/
theorem writeCalls_of_paced {opts : SessionOptions} (hg : GuardsFrom (Paced opts) [] t) :
    ∃ k, writeCalls t = List.replicate k [syncByte] := by
  refine ⟨_, List.eq_replicate_of_mem fun b hb => ?_⟩
  obtain ⟨e, he, heb⟩ := List.mem_filterMap.mp hb
  obtain ⟨pre, post, hsplit⟩ := List.append_of_mem he
  have hpaced := hg pre e post hsplit
  rcases e with ⟨_ | bytes | _ | _, _⟩ | _ | _ | _ | _ | _
  case wire.writeAll =>
    cases heb
    exact hpaced.1
  all_goals cases heb

/-- A paced history calls no session. -/
theorem onSession_of_paced {opts : SessionOptions} (hg : GuardsFrom (Paced opts) [] t) :
    ∀ e ∈ t, e.onSession = none := by
  intro e he
  obtain ⟨pre, post, hsplit⟩ := List.append_of_mem he
  have hpaced := hg pre e post hsplit
  cases e with
  | session e held => exact hpaced.elim
  | _ => rfl

/-- The history of the session is empty behind a paced history. -/
theorem sessionHistory_of_paced {opts : SessionOptions} (hg : GuardsFrom (Paced opts) [] t) :
    sessionHistory t = [] := List.filterMap_eq_nil_iff.mpr (onSession_of_paced hg)

/-! ### How a handshake can fail -/

/-- What a handshake complains of: the wire, the status packet, or that there is none. -/
def Complains (halt : Halt) : Prop :=
  (∃ io, halt = .error (.io io)) ∨ (∃ e, halt = .error (.protocol e)) ∨
    (∃ ms noise, halt = .error (.noBootloader ms noise)) ∨ halt = .outOfFuel

/-- The loop of the handshake ends with one of these complaints, whatever it does on the way. -/
theorem pulseRule_complains (family : ProtocolFamily) (opts : SessionOptions)
    (wait started : ℕ) :
    PulseRule family opts wait started (fun _ _ _ _ => True) (fun _ _ _ _ => True)
      (fun _ _ _ _ => True) (fun _ _ _ _ => True) (fun _ _ => True)
      fun halt _ => Complains halt where
  spent _ := .inr (.inr (.inr rfl))
  givesUp _ _ := .inr (.inr (.inl ⟨_, _, rfl⟩))
  waiting _ _ := trivial
  tick _ _ := trivial
  pulsed _ _ := trivial
  broken io _ _ := .inl ⟨io, rfl⟩
  read _ _ := trivial
  fails io _ := .inl ⟨io, rfl⟩
  received _ _ := trivial
  sifted := contract_sifted (E := fun halt _ => Complains halt) (fun _ _ _ => trivial)
    (fun _ _ _ _ => trivial) (fun _ _ _ => trivial) fun e _ _ => .inr (.inl ⟨e, rfl⟩)
  drained _ := trivial

/-- **How a handshake can fail.** -/
theorem handshake_halts (w : World) (family : ProtocolFamily) (opts : SessionOptions)
    (wait fuel : ℕ) :
    ∀ halt, (handshake w family opts wait fuel []).1 = .error halt → Complains halt := by
  have hcontract : Contract (fun _ => True) (handshake w family opts wait fuel) (fun _ _ => True)
      fun halt _ => Complains halt :=
    contract_handshake (fun _ io _ => .inl ⟨io, rfl⟩) (fun _ _ _ => trivial) fun started =>
      (pulseRule_complains family opts wait started).contract w fuel .new 0 _ _
  intro halt hr
  exact hcontract.ends (h := []) trivial (show _ = (Except.error halt, _) from Prod.ext hr rfl)

end Driver

/-! ### The program -/

open Driver Stc89

/-- **The phases of a session**: the handshake pulses, and if a status packet comes for whose
target there is a plan, a run of the plan follows. -/
theorem session_phases (w : World) (opts : SessionOptions) (wait : ℕ) (drain : DrainConfig)
    (job : Job) (fuel : ℕ) :
    ∃ t₁ t₂ k, (session w opts wait drain job fuel []).2 = t₁ ++ t₂ ∧
      writeCalls t₁ = List.replicate k [syncByte] ∧ sessionHistory t₁ = [] ∧
      ((t₂ = [] ∧ ∃ e, (session w opts wait drain job fuel []).1 = .error e ∧
          (e = .outOfFuel ∨ ∃ f, e = .failure f ∧
            ∀ inner, f ≠ .driver (.indeterminateFlash inner))) ∨
        ∃ status info steps r, firstStatus family (readBytes t₁) = some status ∧
          parseStatus status opts.handshakeBaud = .ok info ∧ plan info job opts = .ok steps ∧
          runFresh (w.after t₁) drain fuel steps = (r, t₂) ∧
          (session w opts wait drain job fuel []).1 =
            (r.mapError Exit.ofHalt).map fun _ => ()) := by
  have hpaced := handshake_guards w family opts wait fuel
  have hends := handshake_endsOn w family opts wait fuel
  obtain ⟨halt, t₁, hhand, hsession⟩ | ⟨info, t₁, e, hhand, -, hsession⟩ |
    ⟨info, t₁, steps, r, t₂, hhand, hplan, hrun, hsession⟩ :=
    session_divides w opts wait drain job fuel
  all_goals
    rw [hhand] at hpaced hends
    obtain ⟨k, hpulses⟩ := writeCalls_of_paced hpaced
    have hnone := sessionHistory_of_paced hpaced
    rw [hsession]
  · refine ⟨t₁, [], k, (List.append_nil _).symm, hpulses, hnone, .inl ⟨rfl, _, rfl, ?_⟩⟩
    obtain ⟨io, rfl⟩ | ⟨e, rfl⟩ | ⟨ms, noise, rfl⟩ | rfl :=
      handshake_halts w family opts wait fuel halt (congrArg Prod.fst hhand)
    · exact .inr ⟨_, rfl, fun _ hbad => by cases hbad⟩
    · exact .inr ⟨_, rfl, fun _ hbad => by cases hbad⟩
    · exact .inr ⟨_, rfl, fun _ hbad => by cases hbad⟩
    · exact .inl rfl
  · exact ⟨t₁, [], k, (List.append_nil _).symm, hpulses, hnone,
      .inl ⟨rfl, _, rfl, .inr ⟨_, rfl, fun _ hbad => by cases hbad⟩⟩⟩
  · obtain ⟨status, hstatus, hparse⟩ := hends
    exact ⟨t₁, t₂, k, rfl, hpulses, hnone, .inr ⟨status, info, steps, r, hstatus, hparse, hplan,
      hrun, rfl⟩⟩

/-- **The conduct of the program**, for any command line, any files and ports, and anything that
may be at the other end of a port. It opens no port, or it runs one session for the job of its
command line. A session writes pulses, and nothing else before a status packet has come; then an
initial segment of the requests of the plan for the target of that packet, in their order. With
success every request of the plan was handed to the wire and written by it, once and in order,
and a fitting reply has come to each step that expects one. -/
theorem main_conduct (m : Machine) (argv : List String) (fuel : ℕ) :
    ((main m argv fuel).2 = [] ∧ ∀ out, (main m argv fuel).1 = .ok out →
      ∃ args, parseArgs argv = .ok args ∧
        (args.command = some "ports" ∨ args.command = some "explain")) ∨
    ∃ args job port w t₁ t₂ k, parseArgs argv = .ok args ∧ JobOf m args job ∧
      args.port = some port ∧ m.openPort port args.handshakeBaud args.parityEven = .ok w ∧
      (main m argv fuel).2 = t₁ ++ t₂ ∧ writeCalls t₁ = List.replicate k [syncByte] ∧
      ((t₂ = [] ∧ ∃ e, (main m argv fuel).1 = .error e) ∨
        ∃ status info steps n, firstStatus family (readBytes t₁) = some status ∧
          parseStatus status args.handshakeBaud = .ok info ∧
          plan info job args.sessionOptions = .ok steps ∧
          writeCalls t₂ = requests (steps.take n) ∧
          ∀ out, (main m argv fuel).1 = .ok out → out = [doneLine job] ∧
            writeCalls t₂ = requests steps ∧ written t₂ = requests steps ∧
            List.Forall₂ Answers (due steps steps.length) (accepted (sessionHistory t₂))) := by
  obtain ⟨hnil, -, hout⟩ | ⟨args, job, port, w, hargs, hjob, hport, hopen, hmain⟩ :=
    main_cases m argv fuel
  · exact .inl ⟨hnil, hout⟩
  obtain ⟨t₁, t₂, k, ht, hpulses, -, hrest⟩ :=
    session_phases w args.sessionOptions args.wait args.drainConfig job fuel
  refine .inr ⟨args, job, port, w, t₁, t₂, k, hargs, hjob, hport, hopen, by rw [hmain, ht],
    hpulses, ?_⟩
  obtain ⟨hnil, e, he, -⟩ | ⟨status, info, steps, r, hstatus, hparse, hplan, hrun, hr⟩ := hrest
  · exact .inl ⟨hnil, e, by rw [hmain, he]; rfl⟩
  obtain ⟨-, s, a, b, hext, -, hok⟩ := run_extent hrun
  refine .inr ⟨status, info, steps, b, hstatus, hparse, hplan, hext.writeCalls_eq, ?_⟩
  intro out hout
  rw [hmain, hr] at hout
  obtain (halt | s') := r
  · cases hout
  · cases hout
    obtain ⟨ha, hanswers⟩ := hok s' rfl
    have hall : ∀ n, a ≤ n → steps.take n = steps := fun n hn =>
      List.take_of_length_le (ha ▸ hn)
    refine ⟨rfl, ?_, ?_, hanswers⟩
    · rw [hext.writeCalls_eq, hall b hext.le]
    · rw [hext.written_eq, hall a (Nat.le_refl a)]

end Stcbsl
