import Stcbsl.Causes
import Stcbsl.Draining
import Stcbsl.EndToEnd

/-!
# Deadlines

The program always comes to an end. Its loops poll, and what bounds them is the clock: a receiver
holds back a bounded number of bytes, and each read takes some time, so that only so many reads
lie before a deadline. The fuel of the model is then no restriction: from some amount on, a run
whose clock moves never uses it up.

## A clock that moves

`Moves tick` is asked of a run, event by event: a look at the clock shows no earlier time than
the look before it, and at least `tick` more for each read between the two. Without such a
condition nothing bounds the loops, in the source as in the model, since a clock that stands
still never comes to a deadline.

## The measure

A turn of a loop takes a bad frame out of the receiver, which costs a byte of what is pending, or
it reads, which costs one of the turns left before the deadline (`turns`) and may bring as many
bytes as the buffer holds. The sum of the two, each turn weighed with the bytes that it can
bring, goes down with each turn (`Lasts`). `enough` is fuel for a handshake and a run.

## Main results

* `turns_read` — a read takes one of the turns that are left before a deadline.
* `runRule_ends`, `pulseRule_ends` — the loops end before their fuel does.
* `main_ends` — the program ends with an answer.
-/

namespace Stcbsl

open Traced Stc89

namespace Driver

/-! ### A clock that moves -/

/-- A look at the clock. -/
def Event.isLook (e : Event) : Bool := e.clock.isSome

/-- What the clock showed at the last look. -/
def lastLook (h : List Event) : Option ℕ := (h.filterMap Event.clock).getLast?

/-- The reads since the last look. -/
def readsBehind (h : List Event) : ℕ := (since Event.isLook h).countP Event.isRead

/-- **The clock moves**: it never goes back, and every read takes `tick` at least. -/
def Moves (tick : ℕ) (h : List Event) : Event → Prop
  | .now t => ∀ t₀ ∈ lastLook h, t₀ + tick * readsBehind h ≤ t
  | _ => True

instance (tick : ℕ) (h : List Event) : DecidablePred (Moves tick h)
  | .now t => inferInstanceAs (Decidable (∀ t₀ ∈ lastLook h, t₀ + tick * readsBehind h ≤ t))
  | .wire _ _ | .read _ | .sleep _ | .log _ | .session _ _ => inferInstanceAs (Decidable True)

/-- The time is `now` at least. -/
def Shows (tick now : ℕ) (h : List Event) : Prop :=
  ∃ t, lastLook h = some t ∧ now ≤ t + tick * readsBehind h

variable {tick now : ℕ} {h : List Event}

/-- Other events leave the last look at the clock as it is. -/
theorem lastLook_concat_of_none {e : Event} (he : e.clock = none) :
    lastLook (h ++ [e]) = lastLook h := by
  rw [lastLook, List.filterMap_append, List.filterMap_cons_none he, List.filterMap_nil,
    List.append_nil]
  rfl

/-- Other events are added to those since the last look. -/
theorem since_isLook_concat {e : Event} (he : e.clock = none) :
    since Event.isLook (h ++ [e]) = since Event.isLook h ++ [e] := by
  refine since_append fun e' he' => ?_
  rw [List.mem_singleton.mp he', Event.isLook, he]
  rfl

/-- Time passes by itself. -/
theorem Shows.concat {e : Event} (hs : Shows tick now h) (he : e.clock = none) :
    Shows tick now (h ++ [e]) := by
  obtain ⟨t, hlast, hle⟩ := hs
  refine ⟨t, (lastLook_concat_of_none he).trans hlast, hle.trans ?_⟩
  rw [readsBehind, readsBehind, since_isLook_concat he, List.countP_append]
  exact Nat.add_le_add_left (Nat.mul_le_mul_left _ (Nat.le_add_right _ _)) _

/-- A read takes its time. -/
theorem Shows.read (hs : Shows tick now h) (r : Except IoError Bytes) :
    Shows tick (now + tick) (h ++ [.read r]) := by
  obtain ⟨t, hlast, hle⟩ := hs
  refine ⟨t, (lastLook_concat_of_none rfl).trans hlast, ?_⟩
  have hreads : readsBehind (h ++ [.read r]) = readsBehind h + 1 := by
    rw [readsBehind, readsBehind, since_isLook_concat rfl, List.countP_append]
    rfl
  rw [hreads, Nat.mul_succ]
  omega

/-- A look at the clock shows its reading. -/
theorem shows_now (tick t : ℕ) (h : List Event) : Shows tick t (h ++ [.now t]) := by
  refine ⟨t, ?_, Nat.le_add_right _ _⟩
  rw [lastLook, List.filterMap_append]
  exact List.getLast?_concat

/-- A look at a clock that moves. -/
theorem Shows.le_now {t : ℕ} (hs : Shows tick now h)
    (hg : GuardsFrom (Moves tick) [] (h ++ [.now t])) : now ≤ t := by
  obtain ⟨t₀, hlast, hle⟩ := hs
  exact hle.trans ((guardsFrom_concat.mp hg).2 t₀ hlast)

/-! ### The turns before a deadline -/

/-- How many reads can begin within so much time. -/
def turns (tick gap : ℕ) : ℕ := (gap + (tick - 1)) / tick

/-- A longer time takes more turns. -/
theorem turns_mono {gap gap' : ℕ} (hle : gap ≤ gap') : turns tick gap ≤ turns tick gap' :=
  Nat.div_le_div_right (Nat.add_le_add_right hle _)

/-- **A read takes one of the turns** that are left before a deadline. -/
theorem turns_read {deadline t : ℕ} (htick : 0 < tick) (hlt : t < deadline) :
    turns tick (deadline - (t + tick)) + 1 ≤ turns tick (deadline - t) := by
  rw [turns, turns, ← Nat.add_div_right _ htick]
  by_cases hgap : tick ≤ deadline - t
  · exact Nat.div_le_div_right (by omega)
  · rw [show deadline - (t + tick) = 0 by omega]
    have hone : (0 + (tick - 1) + tick) / tick = 1 :=
      Nat.div_eq_of_lt_le (by omega) (by omega)
    rw [hone]
    exact (Nat.one_le_div_iff htick).mpr (by omega)

/-! ### The end of a wait -/

/-- The most a receiver of a run ever holds: what it holds back, and one read more. -/
def mostPending : ℕ := 1025 + 512

/-- An end for a reason, or else the clock has stood still. -/
def EndsFor (tick : ℕ) (halt : Halt) (h : List Event) : Prop :=
  (∃ e, halt = .error e) ∨ ¬ GuardsFrom (Moves tick) [] h

/-- **The fuel lasts to the deadline**: for each read that is left, for the bytes that it can
bring, and for those that are pending. -/
def Lasts (tick deadline fuel : ℕ) (rx : Receiver) (h : List Event) : Prop :=
  rx.pending ≤ mostPending ∧ (GuardsFrom (Moves tick) [] h →
    ∃ now, Shows tick now h ∧ rx.pending + 513 * turns tick (deadline - now) < fuel)

/-- A guard of a run holds of its beginning. -/
theorem guards_of_append {φ : List Event → Event → Prop} {t : List Event}
    (hg : GuardsFrom φ [] (h ++ t)) : GuardsFrom φ [] h := (guardsFrom_append.mp hg).1

/-- An event that is no look at the clock uses up no fuel. -/
theorem Lasts.concat {deadline fuel : ℕ} {rx : Receiver} {e : Event}
    (hl : Lasts tick deadline fuel rx h) (he : e.clock = none) :
    Lasts tick deadline fuel rx (h ++ [e]) := by
  refine ⟨hl.1, fun hg => ?_⟩
  obtain ⟨now, hs, hlt⟩ := hl.2 (guards_of_append hg)
  exact ⟨now, hs.concat he, hlt⟩

/-- A bad frame costs a byte, and a turn of the loop. -/
theorem Lasts.rehunt {deadline fuel : ℕ} {rx rx' : Receiver} {e : FrameError}
    (hl : Lasts tick deadline (fuel + 1) rx h) (hn : rx.nextFrame = (some (.error e), rx')) :
    Lasts tick deadline fuel rx'.takeDiscarded.2 h := by
  have hcost : rx'.takeDiscarded.2.pending + 1 ≤ rx.pending :=
    show rx'.pending + 1 ≤ rx.pending from Receiver.pending_of_error hn
  refine ⟨?_, fun hg => ?_⟩
  · have := hl.1
    omega
  · obtain ⟨now, hs, hlt⟩ := hl.2 hg
    exact ⟨now, hs, by omega⟩

/-- What a receiver holds back when it has no frame. -/
theorem pending_of_none {rx rx' : Receiver} (hn : rx.nextFrame = (none, rx')) :
    rx'.pending ≤ 1025 ∧ rx'.pending ≤ rx.pending := by
  have hnone : rx.nextFrame.1 = none := by rw [hn]
  have hund := Receiver.undecided_of_nextFrame hnone
  rw [hn] at hund
  refine ⟨hund.length_le, ?_⟩
  obtain ⟨d, hd⟩ := (Receiver.nextFrame_passes hn (by simp)).suffix
  have hlen := congrArg List.length hd
  rw [List.length_append] at hlen
  rw [Receiver.pending, Receiver.pending, hlen]
  exact Nat.le_add_left _ _

/-- A read costs its time, and a turn of the loop. -/
theorem Lasts.read {deadline fuel t : ℕ} {rx rx' : Receiver} {bytes : Bytes} (htick : 0 < tick)
    (hl : Lasts tick deadline (fuel + 1) rx h) (hn : rx.nextFrame = (none, rx'))
    (ht : t < deadline) (hlen : bytes.length ≤ 512) :
    Lasts tick deadline fuel (rx'.feed bytes) (h ++ [.now t] ++ [.read (.ok bytes)]) := by
  obtain ⟨hheld, hle⟩ := pending_of_none hn
  have hfed : (rx'.feed bytes).pending = rx'.pending + bytes.length := List.length_append
  refine ⟨?_, fun hg => ?_⟩
  · rw [hfed, mostPending]
    omega
  · have hgnow := guards_of_append hg
    obtain ⟨now, hs, hlt⟩ := hl.2 (guards_of_append hgnow)
    refine ⟨t + tick, (shows_now tick t h).read _, ?_⟩
    have hturn : turns tick (deadline - (t + tick)) + 1 ≤ turns tick (deadline - t) :=
      turns_read htick ht
    have hgap : turns tick (deadline - t) ≤ turns tick (deadline - now) :=
      turns_mono (Nat.sub_le_sub_left (hs.le_now hgnow) _)
    omega

/-- **The wait for a frame ends** before its fuel does. -/
theorem awaitRule_ends (session : Session) (x : Send) (deadline : ℕ) (htick : 0 < tick) :
    AwaitRule session x deadline (Lasts tick deadline) (fun p _ => p.2.pending ≤ mostPending)
      (EndsFor tick) where
  spent hl := .inr fun hg => by
    obtain ⟨now, -, hlt⟩ := hl.2 hg
    exact Nat.not_lt_zero _ hlt
  frame {fuel rx f rx' h} hn hl := by
    have hcost : rx'.pending + f.wireLen ≤ rx.pending := Receiver.pending_of_ok hn
    exact (Nat.le_of_add_right_le hcost).trans hl.1
  rehunt hn hl :=
    (logged_of_log (fun _ _ hl => hl.concat rfl) (hl.rehunt hn) _).concat rfl
  late _ _ _ := .inl ⟨_, rfl⟩
  read hn hl ht hlen := hl.read htick hn ht hlen
  fails _ _ _ := .inl ⟨_, rfl⟩

/-! ### The end of a run -/

/-- The fuel for one step that waits so long for its reply. -/
def patience (tick ms : ℕ) : ℕ := mostPending + 513 * turns tick (ms * 1000000)

/-- The fuel lasts for the steps from `i` on. -/
def LastsFrom (tick : ℕ) (steps : List Step) (fuel : ℕ) (s : Session) (i : ℕ) (rx : Receiver) :
    Prop :=
  s.steps = steps ∧ rx.pending ≤ mostPending ∧
    ∀ step ∈ steps, steps.length - i + patience tick step.timeoutMs.toNat < fuel

/-- A step of the session uses up one unit of fuel, and what is left lasts for the steps behind it.
-/
theorem LastsFrom.next {steps : List Step} {fuel : ℕ} {s s' : Session} {i : ℕ} {rx rx' : Receiver}
    (hl : LastsFrom tick steps (fuel + 1) s i rx) (hi : i < s.steps.length)
    (hsteps : s'.steps = s.steps) (hrx : rx'.pending ≤ mostPending) :
    LastsFrom tick steps fuel s' (i + 1) rx' := by
  obtain ⟨rfl, -, hfuel⟩ := hl
  refine ⟨hsteps, hrx, fun step hstep => ?_⟩
  have := hfuel step hstep
  omega

/-- **A run ends** before its fuel does. -/
theorem runRule_ends (w : World) (drain : DrainConfig) (steps : List Step) (htick : 0 < tick) :
    RunRule w drain (fun fuel s rx _ => steps ≠ [] ∧ LastsFrom tick steps fuel s s.index rx)
      (fun fuel s _ rx _ => steps ≠ [] ∧ LastsFrom tick steps fuel s (s.index + 1) rx)
      (fun fuel s _ p _ => steps ≠ [] ∧ LastsFrom tick steps fuel s (s.index + 1) p.2)
      (fun _ _ => True) (EndsFor tick) where
  spent := by
    rintro s rx h ⟨hne, -, -, hfuel⟩
    exact absurd (hfuel _ (List.head_mem hne)) (Nat.not_lt_zero _)
  finished _ _ := trivial
  sent {fuel s rx h} hl hlt := by
    refine ⟨hl.1, hl.2.next hlt rfl ?_⟩
    obtain hrx | hrx := receiverFor_cases (request s hlt) rx
    · rw [hrx]
      exact hl.2.2.1
    · rw [hrx]
      exact Nat.zero_le _
  broken _ _ _ := .inl ⟨_, rfl⟩
  silent {fuel s hlt rx h} hl he := by
    rw [Session.issue_index, if_neg (by rw [he]; decide)]
    exact ⟨hl.1, (Session.issue_steps s hlt).trans hl.2.1, hl.2.2⟩
  heard {fuel s hlt rx} _ := by
    refine contract_awaitReply (R := fun p _ => steps ≠ [] ∧
      LastsFrom tick steps fuel s (s.index + 1) p.2) (fun t => ?_) fun f rx' h hr => hr
    intro h hp
    obtain ⟨h', rfl, hne, hsteps, hrx, hfuel⟩ := hp
    have hlasts : Lasts tick (t + (request s hlt).timeoutMs.toNat * 1000000) fuel rx
        (h' ++ [.now t]) := by
      refine ⟨hrx, fun _ => ⟨t, shows_now tick t h', ?_⟩⟩
      have hstep : s.steps[s.index] ∈ steps := hsteps ▸ List.getElem_mem hlt
      have := hfuel _ hstep
      rw [Nat.add_sub_cancel_left, show (request s hlt).timeoutMs = s.steps[s.index].timeoutMs
        from rfl]
      rw [patience] at this
      omega
    exact ((awaitRule_ends _ _ _ htick).contract fuel rx _ hlasts).weaken
      (fun p hp => ⟨hne, hsteps, hp, hfuel⟩) fun _ he => he
  accepted {fuel s hlt f rx h s'} hl _ _ hindex hsteps := by
    rw [hindex]
    exact ⟨hl.1, hsteps.trans hl.2.1, hl.2.2⟩
  rejected _ _ := .inl ⟨_, rfl⟩

/-! ### The end of a handshake -/

/-- So many turns are left before the deadline. -/
def TurnsLeft (tick deadline n : ℕ) (h : List Event) : Prop :=
  GuardsFrom (Moves tick) [] h → ∃ now, Shows tick now h ∧ turns tick (deadline - now) < n

/-- An event that is no look at the clock takes no turn. -/
theorem TurnsLeft.concat {deadline n : ℕ} {e : Event} (hl : TurnsLeft tick deadline n h)
    (he : e.clock = none) : TurnsLeft tick deadline n (h ++ [e]) := by
  intro hg
  obtain ⟨now, hs, hlt⟩ := hl (guards_of_append hg)
  exact ⟨now, hs.concat he, hlt⟩

/-- A look at the clock takes no turn, and can only show that fewer are left. -/
theorem TurnsLeft.look {deadline n : ℕ} (hl : TurnsLeft tick deadline n h) (t : ℕ) :
    TurnsLeft tick deadline n (h ++ [.now t]) := by
  intro hg
  obtain ⟨now, hs, hlt⟩ := hl (guards_of_append hg)
  exact ⟨t, shows_now tick t h,
    (turns_mono (Nat.sub_le_sub_left (hs.le_now hg) _)).trans_lt hlt⟩

/-- Before the read of an iteration that began in time: a turn is left for it. -/
def TurnLeft (tick deadline n : ℕ) (h : List Event) : Prop :=
  GuardsFrom (Moves tick) [] h →
    ∃ now, Shows tick now h ∧ now < deadline ∧ turns tick (deadline - now) ≤ n

/-- The turn for the read is left behind an event that is no look at the clock. -/
theorem TurnLeft.concat {deadline n : ℕ} {e : Event} (hl : TurnLeft tick deadline n h)
    (he : e.clock = none) : TurnLeft tick deadline n (h ++ [e]) := by
  intro hg
  obtain ⟨now, hs, hlt, hle⟩ := hl (guards_of_append hg)
  exact ⟨now, hs.concat he, hlt, hle⟩

/-- A further look at the clock may find the deadline passed, but takes no turn. -/
theorem TurnLeft.look {deadline n : ℕ} (hl : TurnLeft tick deadline n h) (t : ℕ) :
    TurnLeft tick deadline n (h ++ [.now t]) := by
  intro hg
  obtain ⟨now, hs, hlt, hle⟩ := hl (guards_of_append hg)
  obtain ⟨t', hlook, -⟩ := shows_now tick t h
  refine ⟨now, ⟨t, ?_, (hs.le_now hg).trans (Nat.le_add_right _ _)⟩, hlt, hle⟩
  rw [lastLook, List.filterMap_append]
  exact List.getLast?_concat

/-- The read takes the turn that was left for it. -/
theorem TurnLeft.read {deadline n : ℕ} (htick : 0 < tick) (hl : TurnLeft tick deadline n h)
    (r : Except IoError Bytes) : TurnsLeft tick deadline n (h ++ [.read r]) := by
  intro hg
  obtain ⟨now, hs, hlt, hle⟩ := hl (guards_of_append hg)
  have hturn := turns_read htick hlt
  exact ⟨now + tick, hs.read r, by omega⟩

/-- **The loop of the handshake ends** before its fuel does. -/
theorem pulseRule_ends (family : ProtocolFamily) (opts : SessionOptions) (wait started : ℕ)
    (htick : 0 < tick) :
    PulseRule family opts wait started (fun fuel _ _ => TurnsLeft tick (started + wait) fuel)
      (fun fuel _ _ => TurnLeft tick (started + wait) fuel)
      (fun fuel _ _ => TurnsLeft tick (started + wait) fuel)
      (fun fuel _ _ => TurnsLeft tick (started + wait) fuel) (fun _ _ => True)
      (EndsFor tick) where
  spent hl := .inr fun hg => by
    obtain ⟨now, -, hlt⟩ := hl hg
    exact Nat.not_lt_zero _ hlt
  givesUp _ _ := .inl ⟨_, rfl⟩
  waiting {fuel rx noise h t} hl hin hg := by
    obtain ⟨now, hs, hlt⟩ := hl (guards_of_append hg)
    have hmono : turns tick (started + wait - t) ≤ turns tick (started + wait - now) :=
      turns_mono (Nat.sub_le_sub_left (hs.le_now hg) _)
    rw [elapsed_natCast] at hin
    exact ⟨t, shows_now tick t h, by omega, by omega⟩
  tick t hl := hl.look t
  pulsed _ hl := hl.concat rfl
  broken _ _ _ := .inl ⟨_, rfl⟩
  read hl _ := hl.read htick _
  fails _ _ := .inl ⟨_, rfl⟩
  received t hl := hl.look t
  sifted := contract_sifted (fun h line hl => hl.concat rfl) (fun _ _ _ hl => hl)
    (fun _ _ _ => trivial) fun _ _ _ => .inl ⟨_, rfl⟩
  drained hl := logged_of_log (fun _ _ hl => hl.concat rfl) hl _

/-- **A handshake ends** before its fuel does. -/
theorem handshake_ends (w : World) (family : ProtocolFamily) (opts : SessionOptions) {wait : ℕ}
    {fuel : ℕ} (htick : 0 < tick) (hfuel : turns tick wait < fuel) :
    Contract (fun _ => True) (handshake w family opts wait fuel) (fun _ _ => True)
      (EndsFor tick) := by
  refine contract_handshake (H := fun started => TurnsLeft tick (started + wait) fuel)
    (fun _ _ _ => .inl ⟨_, rfl⟩) (fun h started _ _ => ?_) fun started =>
      (pulseRule_ends family opts wait started htick).contract w fuel .new 0 _ _
  exact ⟨started, shows_now tick started _, by rwa [Nat.add_sub_cancel_left]⟩

end Driver

/-! ### The end of the program -/

open Driver

/-- The steps of a plan are few. -/
theorem length_le_of_plan {info : TargetInfo} {job : Job} {opts : SessionOptions}
    {steps : List Step} (h : plan info job opts = .ok steps) : steps ≠ [] ∧ steps.length ≤ 519 := by
  by_cases hjob : job = .identify
  · subst hjob
    cases h
    exact ⟨List.cons_ne_nil _ _, Nat.le_of_ble_eq_true rfl⟩
  obtain ⟨reload, blocks, -, hblocks, -, hle, rfl⟩ := (plan_eq_ok_iff hjob).mp h
  refine ⟨List.cons_ne_nil _ _, ?_⟩
  have hprogram : (programSteps info blocks opts job).length ≤ 511 := by
    cases job with
    | flash image writeOptions =>
        obtain ⟨-, -, rfl⟩ := eraseBlocks_flash_iff.mp hblocks
        rw [programSteps, List.length_append, writeSteps_eq, List.length_map, List.length_range]
        have hoptions : (if writeOptions then [optionsStep info opts] else []).length ≤ 1 := by
          cases writeOptions <;> simp
        omega
    | _ => exact Nat.zero_le _
  simp only [List.length_cons, List.length_append, List.length_map, List.length_range,
    linkTestRepeats, List.length_nil]
  omega

/-- A planned step waits for as long as the options say. -/
theorem timeoutMs_of_plan {info : TargetInfo} {job : Job} {opts : SessionOptions}
    {steps : List Step} (h : plan info job opts = .ok steps) :
    ∀ step ∈ steps,
      step.timeoutMs = opts.replyTimeoutMs ∨ step.timeoutMs = opts.eraseTimeoutMs := by
  intro step hstep
  cases stepOf_of_plan h step hstep with
  | erase hjob hb hpos hle => exact .inr rfl
  | _ => exact .inl rfl

/-- The fuel that a command line needs, where every read takes `tick`. -/
def enough (tick wait : ℕ) : ℕ :=
  turns tick wait + 519 + patience tick SessionOptions.default.eraseTimeoutMs.toNat

/-- **A session ends** for a reason. -/
theorem session_ends (w : World) (args : Args) (job : Job) {tick fuel : ℕ} (htick : 0 < tick)
    (hfuel : enough tick args.wait < fuel)
    (hclock : GuardsFrom (Moves tick) []
      (session w args.sessionOptions args.wait args.drainConfig job fuel []).2) :
    (session w args.sessionOptions args.wait args.drainConfig job fuel []).1 = .ok () ∨
      ∃ f, (session w args.sessionOptions args.wait args.drainConfig job fuel []).1 =
        .error (.failure f) := by
  have hcontract : Contract (fun _ => True)
      (session w args.sessionOptions args.wait args.drainConfig job fuel) (fun _ _ => True)
      (fun e h => (∃ f, e = .failure f) ∨ ¬ GuardsFrom (Moves tick) [] h) := by
    refine contract_session (R := fun _ _ => True) (E := EndsFor tick)
      (handshake_ends w family _ htick (by rw [enough] at hfuel; omega))
      (fun info h e _ _ => .inl ⟨_, rfl⟩) (fun info steps hplan => ?_) ?_
    · obtain ⟨hne, hlen⟩ := length_le_of_plan hplan
      refine ((runRule_ends w args.drainConfig steps htick).contract fuel .new rfl).pre ?_
      refine fun h _ => ⟨hne, rfl, Nat.zero_le _, fun step hstep => ?_⟩
      have hms : step.timeoutMs.toNat ≤ SessionOptions.default.eraseTimeoutMs.toNat := by
        obtain hms | hms := timeoutMs_of_plan hplan step hstep
        · rw [hms]
          exact Nat.le_of_ble_eq_true rfl
        · rw [hms]
          exact Nat.le_refl _
      have hpatience : patience tick step.timeoutMs.toNat ≤
          patience tick SessionOptions.default.eraseTimeoutMs.toNat :=
        Nat.add_le_add_left (Nat.mul_le_mul_left _ (turns_mono (Nat.mul_le_mul_right _ hms))) _
      rw [enough] at hfuel
      omega
    · rintro halt h (⟨e, rfl⟩ | hstill)
      · exact .inl ⟨_, rfl⟩
      · exact .inr hstill
  have hends := hcontract [] trivial
  rcases hr : session w args.sessionOptions args.wait args.drainConfig job fuel [] with ⟨e | _, t⟩
  · rw [hr] at hends hclock
    obtain ⟨f, rfl⟩ | hstill := hends
    · exact .inr ⟨f, rfl⟩
    · exact absurd hclock hstill
  · exact .inl rfl

/-- **The program comes to an end**, for any command line, any files and ports, and whatever the
other end of the line does, if only every read takes some time: it succeeds, it prints its usage,
or it fails with a message. It does not poll for ever, it reaches no `unreachable!` and no other
panic; and the amount of fuel that shows it depends on the time to wait, and on how long a read
takes, alone. -/
theorem main_ends {m : Machine} {argv : List String} {tick fuel : ℕ} (htick : 0 < tick)
    (hfuel : ∀ args, parseArgs argv = .ok args → enough tick args.wait < fuel)
    (hclock : GuardsFrom (Moves tick) [] (main m argv fuel).2) :
    (∃ out, (main m argv fuel).1 = .ok out) ∨ (main m argv fuel).1 = .error .help ∨
      ∃ f, (main m argv fuel).1 = .error (.failure f) := by
  obtain ⟨-, hearly, -⟩ | ⟨args, job, port, w, hargs, -, -, -, hmain⟩ := main_cases m argv fuel
  · rcases hr : (main m argv fuel).1 with (_ | f | _ | _ | _) | out
    · exact .inr (.inl rfl)
    · exact .inr (.inr ⟨f, rfl⟩)
    · exact (hearly _ hr).elim
    · exact (hearly _ hr).elim
    · exact (hearly _ hr).elim
    · exact .inl ⟨out, rfl⟩
  · rw [hmain] at hclock ⊢
    obtain hok | ⟨f, hfail⟩ := session_ends w args job htick (hfuel args hargs) hclock
    · exact .inl ⟨_, by rw [hok]; rfl⟩
    · exact .inr (.inr ⟨f, by rw [hfail]; rfl⟩)

/-- `main_ends` for the captured target, where each event takes a millisecond. -/
theorem main_ends_bench :
    let argv := ["write", "a.hex", "--port", "tty", "--skip-options"]
    let result := (main benchMachine argv 10292057).1
    (∃ out, result = .ok out) ∨ result = .error .help ∨ ∃ f, result = .error (.failure f) := by
  intro argv result
  have hparse : parseArgs argv = .ok { Args.default with
      command := some "write", positional := ["a.hex"], port := some "tty",
      writeOptions := false } := rfl
  have htick : 0 < 1000000 := by decide
  refine main_ends htick (fun args hargs => ?_) (by decide +kernel)
  cases hparse.symm.trans hargs
  decide +kernel

end Stcbsl
