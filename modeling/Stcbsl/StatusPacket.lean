import Stcbsl.ProtocolOrder
import Stcbsl.TraceLaw

/-!
# What the Host Keeps of the Status Packet

The status packet carries more than the host understands: its version bytes and everything
from payload offset 21 on vary from part to part and from run to run. Of all this a session
depends on the frequency words, the option byte and the chip identity alone, and the option
byte is only ever sent back as it was read.

## Noninterference

Two packets may differ in everything but the bytes that count, in their lengths too (`Alike`).
What is compared is the answer of `parse_status`, up to the fields that no planner reads
(`SameTarget`), and then the plan for any job. A session has nothing but its plan, so the two
sessions are one.

## The option byte

The options frame is the one place where a value that was read from the chip is written to it. It
carries that value in every plan, there is at most one of it, and it is passed only on a reply
that is its echo. This holds for every sequence of calls on the session.

## Main results

* `status_noninterference` — status packets that agree on those bytes lead to the same
  answer and to the same plan.
* `options_only_echoed` — the options frame carries the option byte read, is sent once at
  most, and is only passed on its exact echo.
-/

namespace Stcbsl

open Session

namespace Stc89

/-! ### Packets the host cannot tell apart -/

/-- Two frames agree on the payload bytes the host makes use of: the frequency words, the
option byte and the chip identity. -/
def Alike (f g : Frame) : Prop :=
  ∀ i, i < 16 ∨ i = 18 ∨ i = 19 ∨ i = 20 → f.payload[i]? = g.payload[i]?

/-- Two targets agree in what the planner reads of them. -/
structure SameTarget (a b : TargetInfo) : Prop where
  chipId : a.chipId = b.chipId
  codeFlash : a.codeFlash = b.codeFlash
  measuredHz : a.measuredHz = b.measuredHz
  optionBytes : a.optionBytes = b.optionBytes

/-- Two answers of `parse_status` the planner cannot tell apart. -/
inductive SameAnswer : Except ProtocolError TargetInfo → Except ProtocolError TargetInfo → Prop
  | error (e : ProtocolError) : SameAnswer (.error e) (.error e)
  | ok {a b : TargetInfo} (h : SameTarget a b) : SameAnswer (.ok a) (.ok b)

/-- Packets that are alike agree in each byte that the host makes use of. -/
theorem Alike.getElem {f g : Frame} (h : Alike f g) (i : ℕ)
    (hi : i < 16 ∨ i = 18 ∨ i = 19 ∨ i = 20) (hf : i < f.payload.length)
    (hg : i < g.payload.length) : f.payload[i] = g.payload[i] := by
  have := h i hi
  rwa [List.getElem?_eq_getElem hf, List.getElem?_eq_getElem hg, Option.some.injEq] at this

/-- **Alike packets get the same answer.** -/
theorem Alike.sameAnswer {f g : Frame} (h : Alike f g)
    (hf : f.dir = .mcuToHost ∧ f.cmd = cmdStatus) (hg : g.dir = .mcuToHost ∧ g.cmd = cmdStatus)
    (hlf : 52 ≤ f.payload.length) (hlg : 52 ≤ g.payload.length) (baud : UInt32) :
    SameAnswer (parseStatus f baud) (parseStatus g baud) := by
  have hword : ∀ i (hi : i < 16), f.payload[i] = g.payload[i] := fun i hi =>
    h.getElem i (.inl hi) _ _
  have hnf : ¬ f.payload.length < statusPayloadLen := Nat.not_lt.mpr hlf
  have hng : ¬ g.payload.length < statusPayloadLen := Nat.not_lt.mpr hlg
  have hchip : f.payload.extract offChipId (offChipId + chipIdLen) =
      g.payload.extract offChipId (offChipId + chipIdLen) := by
    rw [extract_chipId hlf, extract_chipId hlg, h.getElem 19 (by omega) (by omega) (by omega),
      h.getElem 20 (by omega) (by omega) (by omega)]
  have hof : offOption < f.payload.length := Nat.lt_of_lt_of_le (by decide) hlf
  have hog : offOption < g.payload.length := Nat.lt_of_lt_of_le (by decide) hlg
  have hoption : f.payload[offOption] = g.payload[offOption] :=
    h.getElem offOption (.inr (.inl rfl)) hof hog
  rw [parseStatus, parseStatus, if_neg (by simp [hf]), if_neg (by simp [hg])]
  dsimp only
  rw [dif_neg hnf, dif_neg hng]
  simp (disch := simp only [offFreq, freqWordCount] at *; omega) only [hword, hchip, hoption]
  split_ifs
  · exact .error _
  · exact .ok ⟨rfl, rfl, rfl, rfl⟩
  · exact .error _

/-- The same blocks are erased, or refused for the same reason. -/
theorem SameTarget.eraseBlocks_eq {a b : TargetInfo} (h : SameTarget a b) (job : Job)
    (hjob : job ≠ .identify) : eraseBlocks a job hjob = eraseBlocks b job hjob := by
  cases job with
  | identify => exact absurd rfl hjob
  | erase blocks => cases blocks <;> simp only [eraseBlocks, h.codeFlash, h.chipId]
  | flash image writeOptions => simp only [eraseBlocks, h.codeFlash]

/-- The same steps write the same image and send the same options. -/
theorem SameTarget.programSteps_eq {a b : TargetInfo} (h : SameTarget a b) (blocks : ℕ)
    (opts : SessionOptions) (job : Job) :
    programSteps a blocks opts job = programSteps b blocks opts job := by
  cases job with
  | flash image writeOptions =>
      simp only [programSteps, optionsStep, optionsFrame, h.optionBytes]
  | _ => rfl

/-- **Same target, same plan.** -/
theorem SameTarget.plan_eq {a b : TargetInfo} (h : SameTarget a b) (job : Job)
    (opts : SessionOptions) : plan a job opts = plan b job opts := by
  by_cases hjob : job = .identify
  · rw [plan, plan, dif_pos hjob, dif_pos hjob]
  · have hlink : linkTestStep a opts = linkTestStep b opts := by
      funext i
      simp only [linkTestStep, h.chipId]
    rw [plan, plan, dif_neg hjob, dif_neg hjob]
    simp only [h.measuredHz, hlink, h.eraseBlocks_eq job hjob, h.programSteps_eq]

end Stc89

open Stc89

/-- **The host depends on nothing else in the status packet.** Two status frames that agree
on payload bytes 0 to 15, 18, 19 and 20 are refused for the same reason or both accepted,
and then every job with every options has the same plan, or is refused for the same reason:
the version bytes, everything from offset 21 on and the length do not matter. -/
theorem status_noninterference {f g : Frame} (hf : f.dir = .mcuToHost ∧ f.cmd = cmdStatus)
    (hg : g.dir = .mcuToHost ∧ g.cmd = cmdStatus) (hlf : 52 ≤ f.payload.length)
    (hlg : 52 ≤ g.payload.length)
    (h : ∀ i, i < 16 ∨ i = 18 ∨ i = 19 ∨ i = 20 → f.payload[i]? = g.payload[i]?)
    (baud : UInt32) :
    (∃ e, parseStatus f baud = .error e ∧ parseStatus g baud = .error e) ∨
      ∃ a b, parseStatus f baud = .ok a ∧ parseStatus g baud = .ok b ∧
        ∀ job opts, plan a job opts = plan b job opts := by
  have hsame := Alike.sameAnswer h hf hg hlf hlg baud
  generalize parseStatus f baud = answer, parseStatus g baud = answer' at hsame
  cases hsame with
  | error e => exact .inl ⟨e, rfl, rfl⟩
  | ok hab => exact .inr ⟨_, _, rfl, rfl, hab.plan_eq⟩

/-- A status packet of the captured target with another version, another opaque region and
three bytes more. -/
def otherStatus : Frame :=
  .mcu cmdStatus
    (benchStatus.payload.take 16 ++ [0x71, 0x44, 0xFD, 0xF0, 0x02] ++ List.replicate 34 0x5A)

/-- `status_noninterference` for the captured target: its plans are those of `otherStatus`. -/
theorem status_noninterference_bench :
    ∃ b, parseStatus otherStatus 2400 = .ok b ∧
      ∀ job opts, plan benchTarget job opts = plan b job opts := by
  have hfreq : ∀ i < 16, benchStatus.payload[i]? = otherStatus.payload[i]? := by decide
  have hagree : ∀ i, i < 16 ∨ i = 18 ∨ i = 19 ∨ i = 20 →
      benchStatus.payload[i]? = otherStatus.payload[i]? := by
    rintro i (hi | rfl | rfl | rfl)
    · exact hfreq i hi
    all_goals rfl
  obtain ⟨e, he, -⟩ | ⟨a, b, ha, hb, h⟩ := status_noninterference (f := benchStatus)
    (g := otherStatus) ⟨rfl, rfl⟩ ⟨rfl, rfl⟩ (by decide) (by decide) hagree 2400
  · rw [parseStatus_benchStatus] at he
    cases he
  · rw [parseStatus_benchStatus] at ha
    cases ha
    exact ⟨b, hb, h⟩

/-! ### The option byte -/

/-- The command byte of a frame stands at position 5 of its wire image. -/
theorem Frame.getElem?_encode_cmd (f : Frame) : f.encode[5]? = some f.cmd := by
  rw [Frame.encode_eq]
  rfl

/-- Only the options phase sends the options command. -/
theorem Phase.command_eq_options_iff {p : Phase} : p.command = cmdOptions ↔ p = .options := by
  cases p <;> decide

/-- A job has one options phase at most. -/
theorem Job.count_options_le (job : Job) : job.phases.count .options ≤ 1 := by
  cases job with
  | identify => decide
  | erase blocks => simp [Job.phases, Job.phasesBeforeRun]
  | flash image writeOptions =>
      cases writeOptions <;>
        simp [Job.phases, Job.phasesBeforeRun, List.count_append, List.count_replicate]

/-- Only the exact echo satisfies the options step. -/
theorem Stc89.optionsStep_accepts_iff {info : TargetInfo} {opts : SessionOptions} {r : Frame} :
    (optionsStep info opts).Accepts r ↔ r = .mcu cmdOptions (info.optionBytes ++ optionsTail) := by
  obtain ⟨dir, cmd, payload⟩ := r
  simp only [Step.Accepts, optionsStep, Frame.isEchoOf, optionsFrame, Frame.host, Frame.mcu,
    Bool.and_eq_true, beq_iff_eq, Frame.mk.injEq, and_true]
  constructor
  · rintro ⟨hdir, ⟨-, hcmd⟩, hpayload⟩
    exact ⟨hdir, hcmd, hpayload⟩
  · rintro ⟨hdir, hcmd, hpayload⟩
    exact ⟨hdir, ⟨hdir, hcmd⟩, hpayload⟩

variable {info : TargetInfo} {job : Job} {opts : SessionOptions} {steps : List Step}

/-- A request is an options command exactly in the options phase. -/
theorem command_of_sends (h : plan info job opts = .ok steps) {calls : List Call} {x : Send}
    (hx : x ∈ sends ((Session.new steps).runCalls calls).1) :
    x.bytes[5]? = some cmdOptions ↔ x.phase = .options := by
  obtain ⟨f, hbytes, -, hcmd⟩ := commands_of_sends h calls x hx
  rw [hbytes, f.getElem?_encode_cmd, Option.some.injEq, hcmd, Phase.command_eq_options_iff]

/-- The step behind an options command, and the job it is for. -/
theorem optionsStep_of_sends (h : plan info job opts = .ok steps) {calls : List Call} {x : Send}
    (hx : x ∈ sends ((Session.new steps).runCalls calls).1)
    (hcmd : x.bytes[5]? = some cmdOptions) :
    steps[x.index]? = some (optionsStep info opts) ∧
      x = (optionsStep info opts).send x.index ∧ ∃ image, job = .flash image true := by
  obtain ⟨step, hstep, heq⟩ := (tracks_runCalls steps calls).of_mem_sends hx
  have hphase : step.phase = .options := by
    rw [← (command_of_sends h hx).mp hcmd, heq]
    rfl
  cases stepOf_of_plan h step (List.mem_of_getElem? hstep) with
  | options hjob => exact ⟨hstep, heq, _, hjob⟩
  | _ => cases hphase

/-- The options command is sent once at most. -/
theorem length_options_le (hplan : plan info job opts = .ok steps) (calls : List Call) :
    ((sends ((Session.new steps).runCalls calls).1).filter fun x =>
      x.bytes[5]? = some cmdOptions).length ≤ 1 := by
  have hfilter : (sends ((Session.new steps).runCalls calls).1).filter
        (fun x => x.bytes[5]? = some cmdOptions) =
      (sends ((Session.new steps).runCalls calls).1).filter fun x => x.phase == .options := by
    apply List.filter_congr
    intro x hx
    rw [Bool.eq_iff_iff, decide_eq_true_iff, beq_iff_eq]
    exact command_of_sends hplan hx
  have hcount : ((sends ((Session.new steps).runCalls calls).1).filter fun x =>
        x.phase == .options).length =
      ((sends ((Session.new steps).runCalls calls).1).map Send.phase).count .options := by
    rw [← List.countP_eq_length_filter, List.count, List.countP_map]
    rfl
  rw [hfilter, hcount, phases_of_sends hplan calls]
  exact Nat.le_trans ((List.take_sublist _ _).count_le _) job.count_options_le

/-- **No option byte is ever invented.** Let `b` be the option byte of an accepted status
frame. Whatever calls are made on a session planned from it, every request that carries the
options command is the frame of `b` and three filler bytes; it is sent once at most, only
for a flash job that asks for it and after every block ack was accepted; and the session
passes it only on its exact echo. -/
theorem options_only_echoed {f : Frame} {baud : UInt32} (hstatus : parseStatus f baud = .ok info)
    (hplan : plan info job opts = .ok steps) (calls : List Call) :
    ∃ b, f.payload[18]? = some b ∧
      let h := ((Session.new steps).runCalls calls).1
      let s := ((Session.new steps).runCalls calls).2
      (∀ x ∈ sends h, x.bytes[5]? = some 0x8D →
        Frame.decode x.bytes = .ok (.host 0x8D [b, 0xFF, 0xFF, 0xFF]) ∧
        (∃ image, job = .flash image true) ∧
        (∀ r, (x.index, r) ∈ accepted h → r = .mcu 0x8D [b, 0xFF, 0xFF, 0xFF]) ∧
        (x.index < s.progress.1 → ∃ r, (x.index, r) ∈ accepted h)) ∧
      ((sends h).filter fun x => x.bytes[5]? = some 0x8D).length ≤ 1 ∧
      ∀ pre x post, h = pre ++ .action (.send x) :: post → x.bytes[5]? = some 0x8D →
        AcceptedAll steps (fun p => p = .write) pre := by
  obtain ⟨b, hb, hoption⟩ := (readOff_of_parseStatus hstatus).optionBytes
  refine ⟨b, hb, ?_⟩
  intro h s
  have t : Tracks steps h s := tracks_runCalls steps calls
  refine ⟨?_, ?_, ?_⟩
  · intro x hx hcmd
    obtain ⟨hstep, heq, hjob⟩ := optionsStep_of_sends hplan hx hcmd
    refine ⟨?_, hjob, ?_, ?_⟩
    · rw [heq]
      show Frame.decode (optionsFrame info).encode = _
      rw [Frame.decode_encode, optionsFrame, hoption]
      rfl
    · intro r hr
      obtain ⟨-, step, hstep', hacc⟩ := t.of_mem_accepted hr
      rw [hstep, Option.some.injEq] at hstep'
      subst hstep'
      rw [optionsStep_accepts_iff, hoption] at hacc
      exact hacc
    · intro hlt
      obtain ⟨r, hr, -⟩ := t.mem_accepted hlt hstep rfl
      exact ⟨r, hr⟩
  · exact length_options_le hplan calls
  · intro pre x post hrun hcmd j step hs hp
    have hx : x ∈ sends h := by rw [hrun, sends_append]; simp [sends, Event.sent]
    have hphase := (command_of_sends hplan hx).mp hcmd
    exact accepted_of_rank_lt hplan hrun j step hs (by rw [hp, hphase]; decide)

/-- `options_only_echoed` for the captured target, whose option byte is `0xFD`. -/
theorem options_only_echoed_bench :
    ∃ steps, plan benchTarget (.flash [0x02, 0x00, 0x4C] true) .default = .ok steps ∧
      ∀ calls, ∀ x ∈ sends ((Session.new steps).runCalls calls).1, x.bytes[5]? = some 0x8D →
        Frame.decode x.bytes = .ok (.host 0x8D [0xFD, 0xFF, 0xFF, 0xFF]) := by
  obtain ⟨steps, hplan⟩ :
      ∃ steps, plan benchTarget (.flash [0x02, 0x00, 0x4C] true) .default = .ok steps :=
    ⟨_, rfl⟩
  refine ⟨steps, hplan, fun calls x hx hcmd => ?_⟩
  obtain ⟨b, hb, hsends, -⟩ := options_only_echoed parseStatus_benchStatus hplan calls
  obtain rfl : 0xFD = b := Option.some.inj hb
  exact (hsends x hx hcmd).1

end Stcbsl
