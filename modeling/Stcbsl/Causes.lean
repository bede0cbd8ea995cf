import Stcbsl.Cadence
import Stcbsl.Command
import Stcbsl.Loops
import Stcbsl.RunReport

/-!
# Causes of Failure

What the program complains of is what has gone wrong, and it is the last thing that happens on
the port: nothing is read or written behind a fault. Where no fault and no deadline ends a
session, none has occurred.

## Deadlines

A read is preceded by a look at the clock that shows the time not to be up (`InTime`), and the
two loops of the driver differ in which look that is. A run looks at the clock right before each
read, so the last look counts, and a read never follows one that shows the deadline passed. A
handshake looks at the clock at the head of its loop, and perhaps again for a frame that is
arriving and for a pulse, before it reads: one of the looks since the last read was in time, and
a later one may show the whole wait to be over already. With a clock that never goes back the
read that follows is then the last one.

## Causes

An error of the driver is explained by the end of the history (`Cause`): the fault of its last
event, the last look at the clock, or a status packet that does not parse. `wrap` may put the
error of a run into the one that speaks of an indeterminate flash, so an error is explained with
or without it (`Explained`).

## Main results

* `runRule_accounted`, `handshake_accounted` — the ends of a run and of a handshake.
* `main_accounts` — the ends of the program.
-/

namespace Stcbsl

open Traced Stc89

namespace Driver

/-! ### Faults -/

/-- What an event gives reason to complain of: a call on the wire that fails, or a reply that is
not the expected one. -/
def Event.fault : Event → Option Error
  | wire _ (.error io) => some (.io io)
  | read (.error io) => some (.io io)
  | session (.reply _ _ (.error e)) _ => some (.session e)
  | _ => none

/-- Nothing has gone wrong. -/
def NoFault (h : List Event) : Prop := ∀ e ∈ h, e.fault = none

/-- A look at the clock allows a read: in a handshake one since the last read that shows the wait
not to be over, in a run the last event, which shows the deadline of the request not to have
passed. -/
def InTime (wait : ℕ) (h : List Event) : Prop :=
  match lastRequest h with
  | none => ∃ t ∈ (since Event.isRead h).filterMap Event.clock, ∀ t₀ ∈ startedAt h, t - t₀ < wait
  | some (x, _) => ∃ h' t t₀, h = h' ++ [.now t] ∧ waitingSince h = some t₀ ∧
      t < t₀ + x.timeoutMs.toNat * 1000000

/-- **Nothing happens behind a fault**, and each read has a look at the clock in time. -/
def Orderly (wait : ℕ) (h : List Event) : Event → Prop
  | .read _ => NoFault h ∧ InTime wait h
  | _ => NoFault h

/-- **What an error stands for**, at the end of a history: the fault of its last event, or the
last look at the clock; or a status packet that does not parse. -/
inductive Cause (baud : UInt32) (wait : ℕ) : Error → List Event → Prop
  | fault {h : List Event} {e : Event} {err : Error} (he : e.fault = some err) :
      Cause baud wait err (h ++ [e])
  | late {h : List Event} {x : Send} {t₀ t : ℕ} (hlast : ∃ held, lastRequest h = some (x, held))
      (hsince : waitingSince h = some t₀) (ht : t₀ + x.timeoutMs.toNat * 1000000 ≤ t) :
      Cause baud wait (.timeout x.label x.timeoutMs) (h ++ [.now t])
  | noBootloader {h : List Event} {t₀ t noise : ℕ} (hnone : lastRequest h = none)
      (hstart : startedAt h = some t₀) (ht : wait ≤ t - t₀) :
      Cause baud wait (.noBootloader (UInt64.ofNat (wait / 1000000)) noise) (h ++ [.now t])
  | badStatus {h : List Event} {f : Frame} {e : ProtocolError} (hnone : lastRequest h = none)
      (hfirst : firstStatus family (readBytes h) = some f)
      (hparse : parseStatus f baud = .error e) :
      Cause baud wait (.protocol e) h

variable {baud : UInt32} {wait : ℕ} {h t : List Event}

/-- All has been orderly, and nothing has gone wrong. -/
structure OrderlyRun (wait : ℕ) (h : List Event) : Prop where
  noFault : NoFault h
  guarded : GuardsFrom (Orderly wait) [] h

/-- For an event other than a read it is enough that nothing has gone wrong. -/
theorem orderly_of_not_read {e : Event} (hu : NoFault h) (hread : e.isRead = false) :
    Orderly wait h e := by
  cases e with
  | read r => cases hread
  | _ => exact hu

/-- Nothing has gone wrong with a further event that is no fault. -/
theorem NoFault.concat {e : Event} (hu : NoFault h) (he : e.fault = none) :
    NoFault (h ++ [e]) := by
  intro e' he'
  rcases List.mem_append.mp he' with he' | he'
  · exact hu e' he'
  · rwa [List.mem_singleton.mp he']

namespace OrderlyRun

/-- An event that is neither a fault nor a read keeps a run in order. -/
theorem concat {e : Event} (hc : OrderlyRun wait h) (he : e.fault = none)
    (hread : e.isRead = false) : OrderlyRun wait (h ++ [e]) :=
  ⟨hc.noFault.concat he,
    guardsFrom_concat.mpr ⟨hc.guarded, orderly_of_not_read hc.noFault hread⟩⟩

/-- A read in time keeps a run in order. -/
theorem read {bytes : Bytes} (hc : OrderlyRun wait h) (hin : InTime wait h) :
    OrderlyRun wait (h ++ [.read (.ok bytes)]) :=
  ⟨hc.noFault.concat rfl, guardsFrom_concat.mpr ⟨hc.guarded, hc.noFault, hin⟩⟩

/-- Events that are neither faults nor reads keep a run in order. -/
theorem append (hc : OrderlyRun wait h) (ht : ∀ e ∈ t, e.fault = none ∧ e.isRead = false) :
    OrderlyRun wait (h ++ t) := by
  induction t generalizing h with
  | nil => rwa [List.append_nil]
  | cons e t ih =>
      obtain ⟨⟨he, hread⟩, ht⟩ := List.forall_mem_cons.mp ht
      rw [List.append_cons]
      exact ih (hc.concat he hread) ht

/-- A line of the log keeps a run in order. -/
theorem log (hc : OrderlyRun wait h) (line : LogLine) : OrderlyRun wait (h ++ [.log line]) :=
  hc.concat rfl rfl

end OrderlyRun

/-- The script of a request, with no call failing. -/
theorem script_faultless (drain : DrainConfig) (x : Send) :
    ∀ e ∈ script drain x, e.fault = none ∧ e.isRead = false := by
  have hall : GuardsFrom (fun _ e => e.fault = none ∧ e.isRead = false) [] (script drain x) :=
    guardsFrom_script (fun _ _ => ⟨rfl, rfl⟩) (fun _ _ => ⟨rfl, rfl⟩) (fun _ => ⟨rfl, rfl⟩)
      (fun _ => ⟨rfl, rfl⟩) (fun _ _ => ⟨rfl, rfl⟩) ⟨rfl, rfl⟩ (fun _ _ => ⟨rfl, rfl⟩)
  intro e he
  obtain ⟨pre, post, heq⟩ := List.append_of_mem he
  exact hall pre e post heq

/-- What an error, wrapped or not, stands for. -/
def Explained (baud : UInt32) (wait : ℕ) (e : Error) (h : List Event) : Prop :=
  ∃ err, (e = err ∨ e = .indeterminateFlash err) ∧ Cause baud wait err h

/-- **An end that is accounted for**: all has been orderly, and there is a cause, or else nothing
has gone wrong. -/
def Accounted (baud : UInt32) (wait : ℕ) (halt : Halt) (h : List Event) : Prop :=
  GuardsFrom (Orderly wait) [] h ∧ match halt with
    | .error e => Explained baud wait e h
    | _ => NoFault h

/-- An end at a fault is accounted for by it, in its wrapping or without. -/
theorem accounted_of_fault {e : Event} {err err' : Error} (hc : OrderlyRun wait h)
    (he : e.fault = some err) (ho : Orderly wait h e)
    (heq : err' = err ∨ err' = .indeterminateFlash err) :
    Accounted baud wait (.error err') (h ++ [e]) :=
  ⟨guardsFrom_concat.mpr ⟨hc.guarded, ho⟩, err, heq, .fault he⟩

/-- An error is left as it is, or it is wrapped. -/
theorem wrap_cases (s : Session) (e : Error) : wrap s e = e ∨ wrap s e = .indeterminateFlash e := by
  rw [wrap]
  split
  · exact .inr rfl
  · exact .inl rfl

/-! ### The ends of a run -/

/-- Waiting for the reply to a request, in good order. -/
def WaitingOrderly (wait : ℕ) (x : Send) (t₀ : ℕ) (h : List Event) : Prop :=
  OrderlyRun wait h ∧ ∃ k, Waiting x t₀ k h

/-- The wait goes on with an event of listening that is neither a fault nor a read. -/
theorem WaitingOrderly.concat {x : Send} {t₀ : ℕ} {e : Event} (hw : WaitingOrderly wait x t₀ h)
    (he : e.fault = none) (hread : e.isRead = false) (hl : e.listening = true) :
    WaitingOrderly wait x t₀ (h ++ [e]) :=
  ⟨hw.1.concat he hread, _, hw.2.choose_spec.append (quiet_single hl)⟩

/-- A look at the clock before the deadline allows a read. -/
theorem WaitingOrderly.inTime {x : Send} {t₀ t : ℕ} (hw : WaitingOrderly wait x t₀ h)
    (ht : t < t₀ + x.timeoutMs.toNat * 1000000) : InTime wait (h ++ [.now t]) := by
  obtain ⟨-, k, hwaiting⟩ := hw
  have hnow := hwaiting.append (quiet_single (e := .now t) rfl)
  obtain ⟨held, hlast⟩ := hnow.request
  rw [InTime, hlast]
  exact ⟨h, t, t₀, rfl, hnow.waitingSince, ht⟩

/-- **The wait for a frame is accounted for.** -/
theorem awaitRule_accounted (session : Session) (x : Send) (t₀ : ℕ) :
    AwaitRule session x (t₀ + x.timeoutMs.toNat * 1000000) (fun _ _ => WaitingOrderly wait x t₀)
      (fun _ => WaitingOrderly wait x t₀) (Accounted baud wait) where
  spent hw := ⟨hw.1.guarded, hw.1.noFault⟩
  frame _ hw := logged_of_log (fun _ line hw => hw.concat rfl rfl rfl) hw _
  rehunt _ hw :=
    (logged_of_log (fun _ line hw => hw.concat rfl rfl rfl) hw _).concat rfl rfl rfl
  late _ hw ht := by
    refine ⟨(hw.1.concat rfl rfl).guarded, _, wrap_cases _ _, ?_⟩
    obtain ⟨-, k, hwaiting⟩ := hw
    exact .late hwaiting.request hwaiting.waitingSince ht
  read _ hw ht _ := by
    refine ⟨(hw.1.concat rfl rfl).read (hw.inTime ht), ?_⟩
    obtain ⟨-, k, hwaiting⟩ := hw
    exact ⟨_, (hwaiting.append (quiet_single rfl)).append (quiet_single rfl)⟩
  fails _ hw ht :=
    accounted_of_fault (hw.1.concat rfl rfl) rfl ⟨(hw.1.concat rfl rfl).noFault, hw.inTime ht⟩
      (wrap_cases _ _)

/-- Behind the script of a request, in good order: the wait begins with the next look at the
clock. -/
def Sent (wait : ℕ) (x : Send) (h : List Event) : Prop :=
  OrderlyRun wait h ∧ ∀ t₀, Waiting x t₀ 0 (h ++ [.now t₀])

/-- **A run is accounted for**, whatever came before it. -/
theorem runRule_accounted (w : World) (drain : DrainConfig) :
    RunRule w drain (fun _ _ _ => OrderlyRun wait) (fun _ s hlt _ => Sent wait (request s hlt))
      (fun _ _ _ _ => OrderlyRun wait) (fun _ => OrderlyRun wait) (Accounted baud wait) where
  spent hc := ⟨hc.guarded, hc.noFault⟩
  finished hc _ := hc.concat rfl rfl
  sent {fuel s rx h} hc hlt := by
    refine ⟨(hc.concat rfl rfl).append (script_faultless drain _), fun t₀ => ?_⟩
    rw [List.append_assoc, List.append_assoc]
    exact waiting_asked hlt rx h drain t₀
  broken {fuel s rx h hlt pre op post} io hc hscript := by
    have hall := script_faultless drain (request s hlt)
    rw [hscript] at hall
    have hfirst := (hc.concat (e := asked s hlt rx) rfl rfl).append
      (List.forall_mem_append.mp hall).1
    exact accounted_of_fault hfirst rfl hfirst.noFault (wrap_cases _ _)
  silent hs _ := hs.1
  heard {fuel s hlt rx} _ := by
    refine contract_awaitReply (R := fun _ h => ∃ t₀, WaitingOrderly wait (request s hlt) t₀ h)
      (fun t => ?_) fun f rx' h hr => ?_
    · refine (((awaitRule_accounted _ _ t).contract fuel rx).pre ?_).post fun _ _ hr => ⟨t, hr⟩
      rintro _ ⟨h, rfl, hc, hwait⟩
      exact ⟨hc.concat rfl rfl, _, hwait t⟩
    · obtain ⟨t₀, hc, -⟩ := hr
      exact (logged_of_log (fun _ line hc => hc.log line) hc _).log _
  accepted hc _ _ _ _ := hc.concat rfl rfl
  rejected hc _ := accounted_of_fault hc rfl hc.noFault (wrap_cases _ _)

/-! ### The ends of a handshake -/

/-- Before the first request, in good order. -/
structure BeforeRequest (wait started : ℕ) (h : List Event) : Prop where
  orderly : OrderlyRun wait h
  noRequest : lastRequest h = none
  startedAt : startedAt h = some started

namespace BeforeRequest

variable {started : ℕ}

/-- An event that is neither a fault nor a read nor a request keeps a handshake in order. -/
theorem concat {e : Event} (hw : BeforeRequest wait started h) (he : e.fault = none)
    (hread : e.isRead = false) (hreq : e.request = none) : BeforeRequest wait started (h ++ [e]) :=
  ⟨hw.orderly.concat he hread, (lastRequest_concat hreq).trans hw.noRequest,
    startedAt_append hw.startedAt _⟩

/-- A read in time keeps a handshake in order. -/
theorem read {bytes : Bytes} (hw : BeforeRequest wait started h) (hin : InTime wait h) :
    BeforeRequest wait started (h ++ [.read (.ok bytes)]) :=
  ⟨hw.orderly.read hin, (lastRequest_concat rfl).trans hw.noRequest,
    startedAt_append hw.startedAt _⟩

/-- A line of the log keeps a handshake in order. -/
theorem log (hw : BeforeRequest wait started h) (line : LogLine) :
    BeforeRequest wait started (h ++ [.log line]) := hw.concat rfl rfl rfl

/-- A look at the clock in time allows a read. -/
theorem inTime_now {t : ℕ} (hw : BeforeRequest wait started h) (ht : t - started < wait) :
    InTime wait (h ++ [.now t]) := by
  rw [InTime, lastRequest_concat rfl, hw.noRequest]
  refine ⟨t, ?_, fun t₀ ht₀ => ?_⟩
  · rw [since_append (by simp [Event.isRead]), List.filterMap_append]
    exact List.mem_append_right _ List.mem_cons_self
  · obtain rfl : started = t₀ :=
      Option.some.inj ((startedAt_append hw.startedAt [.now t]).symm.trans ht₀)
    exact ht

/-- Without a read in between it stays allowed. -/
theorem inTime_concat {e : Event} (hw : BeforeRequest wait started h) (hin : InTime wait h)
    (hread : e.isRead = false) (hreq : e.request = none) : InTime wait (h ++ [e]) := by
  rw [InTime, hw.noRequest] at hin
  obtain ⟨t, ht, hlt⟩ := hin
  rw [InTime, lastRequest_concat hreq, hw.noRequest]
  refine ⟨t, ?_, fun t₀ ht₀ => ?_⟩
  · rw [since_append (by simpa using hread), List.filterMap_append]
    exact List.mem_append_left _ ht
  · rw [startedAt_append hw.startedAt] at ht₀
    exact hlt t₀ (hw.startedAt.trans ht₀)

end BeforeRequest

/-- An end of the handshake that is accounted for, but for a status packet that does not parse. -/
def EndsBeforeRequest (baud : UInt32) (wait : ℕ) (halt : Halt) (h : List Event) : Prop :=
  lastRequest h = none ∧ GuardsFrom (Orderly wait) [] h ∧ match halt with
    | .error (.protocol _) => True
    | .error e => Cause baud wait e h
    | _ => NoFault h

/-- An end of the handshake at a call that fails. -/
theorem endsBeforeRequest_of_io {started : ℕ} {e : Event} {io : IoError}
    (hw : BeforeRequest wait started h) (he : e.fault = some (.io io)) (ho : Orderly wait h e)
    (hreq : e.request = none) :
    EndsBeforeRequest baud wait (.error (.io io)) (h ++ [e]) :=
  ⟨(lastRequest_concat hreq).trans hw.noRequest, guardsFrom_concat.mpr ⟨hw.orderly.guarded, ho⟩,
    .fault he⟩

/-- Between two readings of the clock the elapsed time is their difference. -/
theorem elapsed_natCast (t started : ℕ) : elapsed t started = t - started := by
  rw [elapsed]
  omega

/-- **The loop of the handshake is accounted for.** -/
theorem pulseRule_accounted (family : ProtocolFamily) (opts : SessionOptions) (started : ℕ) :
    PulseRule family opts wait started (fun _ _ _ => BeforeRequest wait started)
      (fun _ _ _ h => BeforeRequest wait started h ∧ InTime wait h)
      (fun _ _ _ => BeforeRequest wait started) (fun _ _ _ => BeforeRequest wait started)
      (fun _ h => OrderlyRun wait h ∧ lastRequest h = none) (EndsBeforeRequest baud wait) where
  spent hw := ⟨hw.noRequest, hw.orderly.guarded, hw.orderly.noFault⟩
  givesUp {fuel rx noise h t} hw hover := by
    have hnow := hw.concat (e := .now t) rfl rfl rfl
    rw [elapsed_natCast] at hover
    exact ⟨hnow.noRequest, hnow.orderly.guarded, .noBootloader hw.noRequest hw.startedAt hover⟩
  waiting hw hin := ⟨hw.concat rfl rfl rfl, hw.inTime_now (by rwa [elapsed_natCast] at hin)⟩
  tick t hw := ⟨hw.1.concat rfl rfl rfl, hw.1.inTime_concat hw.2 rfl rfl⟩
  pulsed _ hw := ⟨hw.1.concat rfl rfl rfl, hw.1.inTime_concat hw.2 rfl rfl⟩
  broken io _ hw := endsBeforeRequest_of_io hw.1 rfl hw.1.orderly.noFault rfl
  read hw _ := hw.1.read hw.2
  fails io hw := endsBeforeRequest_of_io hw.1 rfl ⟨hw.1.orderly.noFault, hw.2⟩ rfl
  received t hw := hw.concat rfl rfl rfl
  sifted := contract_sifted (fun h line hw => hw.log line) (fun _ _ _ hw => hw)
    (fun _ _ hw => ⟨hw.orderly, hw.noRequest⟩)
    fun _ _ hw => ⟨hw.noRequest, hw.orderly.guarded, trivial⟩
  drained hw := logged_of_log (fun _ line hw => hw.log line) hw _

/-- **A handshake is accounted for.** -/
theorem handshake_accounted (w : World) (opts : SessionOptions) (fuel : ℕ) :
    Contract (fun h => h = []) (handshake w family opts wait fuel) (fun _ => OrderlyRun wait)
      (Accounted opts.handshakeBaud wait) := by
  have hcontract : Contract (fun h => h = []) (handshake w family opts wait fuel)
      (fun _ h => OrderlyRun wait h ∧ lastRequest h = none)
      (EndsBeforeRequest opts.handshakeBaud wait) := by
    refine contract_handshake (H := fun started => BeforeRequest wait started) ?_ ?_ fun started =>
      (pulseRule_accounted family opts started).contract w fuel .new 0 _ _
    · rintro _ io rfl
      refine ⟨rfl, guardsFrom_cons.mpr ⟨?_, guardsFrom_nil _⟩, .fault (h := []) rfl⟩
      exact fun _ hbad => by cases hbad
    · rintro _ started rfl
      have hfirst : OrderlyRun wait [] := ⟨(fun _ hbad => by cases hbad), guardsFrom_nil _⟩
      exact ⟨(hfirst.concat rfl rfl).concat rfl rfl, rfl, rfl⟩
  rintro _ rfl
  have hends := hcontract [] rfl
  have hon := handshake_endsOn w family opts wait fuel
  rcases hr : handshake w family opts wait fuel [] with ⟨halt | info, t⟩
  · rw [hr] at hends hon
    obtain ⟨hnone, horderly, hcause⟩ := hends
    refine ⟨horderly, ?_⟩
    rcases halt with e | _ | _
    · refine ⟨e, .inl rfl, ?_⟩
      cases e with
      | protocol pe =>
          obtain ⟨f, hfirst, hparse⟩ := hon
          exact .badStatus hnone hfirst hparse
      | _ => exact hcause
    · exact hcause
    · exact hcause
  · rw [hr] at hends
    exact hends.1

end Driver

/-! ### The ends of the program -/

open Driver

/-- What the result of the program says of the events on the port. -/
def Accounts (baud : UInt32) (wait : ℕ) {α : Type} (r : Except Exit α) (h : List Driver.Event) :
    Prop :=
  match r with
  | .error (.failure (.driver e)) => Explained baud wait e h
  | _ => NoFault h

/-- What is printed with success has no part in the account. -/
theorem Accounts.map {baud : UInt32} {wait : ℕ} {α β : Type} {r : Except Exit α}
    {h : List Driver.Event} (ha : Accounts baud wait r h) (f : α → β) :
    Accounts baud wait (r.map f) h := by
  rcases r with (_ | failure | _ | _ | _) | a
  case error.failure => cases failure <;> exact ha
  all_goals exact ha

/-- **A session is accounted for.** -/
theorem session_accounted (w : World) (opts : SessionOptions) (wait : ℕ) (drain : DrainConfig)
    (job : Job) (fuel : ℕ) :
    GuardsFrom (Orderly wait) [] (session w opts wait drain job fuel []).2 ∧
      Accounts opts.handshakeBaud wait (session w opts wait drain job fuel []).1
        (session w opts wait drain job fuel []).2 := by
  have hcontract : Contract (fun h => h = []) (session w opts wait drain job fuel)
      (fun _ => OrderlyRun wait) (fun e h => GuardsFrom (Orderly wait) [] h ∧
        Accounts opts.handshakeBaud wait (.error e : Except Exit Unit) h) := by
    refine contract_session (handshake_accounted w opts fuel) ?_ ?_ ?_
    · exact fun info h e hc _ => ⟨hc.guarded, hc.noFault⟩
    · exact fun info steps _ => (runRule_accounted w drain).contract fuel .new rfl
    · rintro (e | _ | _) h hend
      · exact hend
      · exact hend
      · exact hend
  have hends := hcontract [] rfl
  rcases hr : session w opts wait drain job fuel [] with ⟨e | _, t⟩
  · rw [hr] at hends
    exact hends
  · rw [hr] at hends
    exact ⟨hends.guarded, hends.noFault⟩

/-- **The program accounts for how it ends**, for any command line, any files and ports, and
whatever the wire and the clock do. Without a session it ends with what it prints, with help, or
with a complaint about the command line or the files. In a session nothing happens behind a call
that has failed, or a reply that was rejected, and each read has a look at the clock in time:
right before it in a run, and since the last read in a handshake. An error of the driver, wrapped
or not, is the fault of the last event on the port, or what the last look at the clock says, or
the status packet that came does not parse; where a session ends in another way nothing has gone
wrong on the port. -/
theorem main_accounts (m : Machine) (argv : List String) (fuel : ℕ) :
    ((main m argv fuel).2 = [] ∧ ∀ e, (main m argv fuel).1 = .error e → e.Early) ∨
    ∃ args, parseArgs argv = .ok args ∧
      GuardsFrom (Orderly args.wait) [] (main m argv fuel).2 ∧
      Accounts args.handshakeBaud args.wait (main m argv fuel).1 (main m argv fuel).2 := by
  obtain ⟨hnil, hearly, -⟩ | ⟨args, job, port, w, hargs, -, -, -, hmain⟩ := main_cases m argv fuel
  · exact .inl ⟨hnil, hearly⟩
  · obtain ⟨horderly, haccounts⟩ :=
      session_accounted w args.sessionOptions args.wait args.drainConfig job fuel
    rw [hmain]
    exact .inr ⟨args, hargs, horderly, haccounts.map _⟩

end Stcbsl
