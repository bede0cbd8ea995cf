import Stcbsl.Conduct
import Stcbsl.EndToEnd

/-!
# The Forecast of `explain`

`explain` needs no port and no chip; `write` works from a plan for the chip that answered. Both
are given the same file. What `explain` prints is then what happens on the wire: the bytes that
are written, read back as the bootloader reads them, erase as many blocks and write blocks with
the addresses and the sums that were printed, and these sums are the acks that are accepted. A
session that breaks off has come an initial segment of the way.

## Summaries

Both sides are brought into one form (`Summary`): the counts of the erases, the blocks that are
written, with their addresses and sums, and the blocks that are confirmed, with the ack that was
accepted. `happened` is read off the strings that were handed to the wire and the replies that
were accepted, by decoding the strings as a bootloader would, and `forecast` off the lines that
`explain` prints. Neither looks at a plan. In between stands the plan, of which both are
shown to be summaries.

## Main results

* `blocks_of_plan`, `counts_of_plan` — a flash plan as the wire shows it.
* `confirmed_eq` — what is confirmed where the first steps are answered.
* `run_forecast` — a run of a flash plan goes by what is listed for its image.
* `main_forecasts` — `explain` and `write`, for one file.
-/

namespace Stcbsl

open Traced Session Stc89 Driver

/-! ### What the wire shows -/

/-- The payload of a request with the command `cmd`. -/
def payloadOf (cmd : UInt8) (bytes : Bytes) : Option Bytes :=
  match Frame.decode bytes with
  | .ok f => if f.dir = .hostToMcu ∧ f.cmd = cmd then some f.payload else none
  | .error _ => none

/-- The address of a block write, and the sum of the bytes in it. -/
def blockOf (bytes : Bytes) : Option (ℕ × UInt8) :=
  (payloadOf cmdWrite bytes).bind fun
    | a3 :: a2 :: a1 :: a0 :: c1 :: c0 :: rest =>
        some ((u32FromBeBytes a3 a2 a1 a0).toNat,
          sumMod256 (rest.take (u16FromBeBytes c1 c0).toNat))
    | _ => none

/-- The block count of an erase. -/
def countOf (bytes : Bytes) : Option ℕ :=
  (payloadOf cmdErase bytes).bind fun payload => payload.head?.map UInt8.toNat

/-- The blocks that are confirmed: the address of the request, and the ack that was accepted. -/
def confirmed (h : List Session.Event) : List (ℕ × UInt8) :=
  (accepted h).filterMap fun reply =>
    ((sends h)[reply.1]?).bind fun x => (blockOf x.bytes).bind fun block =>
      reply.2.payload.head?.map fun ack => (block.1, ack)

/-- An encoded host frame carries its payload under its own command, and none under another. -/
theorem payloadOf_encode {f : Frame} (hdir : f.dir = .hostToMcu) (cmd : UInt8) :
    payloadOf cmd f.encode = if f.cmd = cmd then some f.payload else none := by
  rw [payloadOf, Frame.decode_encode]
  simp only [hdir, true_and]

/-- A write frame on the wire, read as the bootloader reads it. -/
theorem blockOf_encode {f : Frame} {addr count : ℕ} {data : Bytes}
    (hf : WritesAt f addr count data) (hlen : data.length = count) :
    blockOf f.encode = some (addr, sumMod256 data) := by
  obtain ⟨a3, a2, a1, a0, c1, c0, hpayload, haddr, hcount⟩ := hf.payload
  rw [blockOf, payloadOf_encode hf.dir, if_pos hf.cmd, hpayload]
  simp only [Option.bind_some, haddr, hcount, ← hlen, List.take_length]

/-- Another host frame writes no block. -/
theorem blockOf_of_ne {f : Frame} (hdir : f.dir = .hostToMcu) (hcmd : f.cmd ≠ cmdWrite) :
    blockOf f.encode = none := by
  rw [blockOf, payloadOf_encode hdir, if_neg hcmd, Option.bind_none]

/-- A host frame that is no erase carries no block count. -/
theorem countOf_of_ne {f : Frame} (hdir : f.dir = .hostToMcu) (hcmd : f.cmd ≠ cmdErase) :
    countOf f.encode = none := by
  rw [countOf, payloadOf_encode hdir, if_neg hcmd, Option.bind_none]

/-- A pulse is no request. -/
theorem filterMap_pulses {β : Type} {g : Bytes → Option β} (h : g [syncByte] = none) (k : ℕ) :
    (List.replicate k [syncByte]).filterMap g = [] := by
  rw [List.filterMap_eq_nil_iff]
  intro b hb
  rwa [List.eq_of_mem_replicate hb]

/-- Only some of the steps show. -/
theorem filterMap_requests {β : Type} {g : Bytes → Option β} {p : Step → Bool}
    {steps : List Step} (h : ∀ step ∈ steps, p step = false → g step.frame.encode = none) :
    (requests steps).filterMap g = (requests (steps.filter p)).filterMap g := by
  rw [requests, requests, List.filterMap_map, List.filterMap_map, List.filterMap_filter]
  refine List.filterMap_congr fun step hmem => ?_
  cases hp : p step with
  | false => simpa [hp] using h step hmem hp
  | true => simp

/-! ### A flash plan on the wire -/

/-- The command tells the phase, behind the status packet. -/
theorem Phase.command_inj {p q : Phase} (hp : 2 ≤ p.rank) (hq : 2 ≤ q.rank)
    (h : p.command = q.command) : p = q := by
  revert hp hq h
  cases p <;> cases q <;> decide

section Plan

variable {info : TargetInfo} {image : Bytes} {writeOptions : Bool} {opts : SessionOptions}
  {steps : List Step}

/-- No step sends the command of another phase. -/
theorem command_ne_of_plan (h : plan info (.flash image writeOptions) opts = .ok steps)
    {step : Step} (hmem : step ∈ steps) {p : Phase} (hp : 2 ≤ p.rank) (hne : step.phase ≠ p) :
    step.frame.cmd ≠ p.command := by
  have hrank : 2 ≤ step.phase.rank := by
    cases stepOf_of_plan h step hmem <;> exact Nat.le_of_ble_eq_true rfl
  rw [(planned_of_mem h step hmem).cmd]
  exact fun hbad => hne (Phase.command_inj hrank hp hbad)

/-- The only steps that write a block are those of the write phase. -/
theorem blockOf_of_plan (h : plan info (.flash image writeOptions) opts = .ok steps)
    {step : Step} (hmem : step ∈ steps) (hne : step.phase ≠ .write) :
    blockOf step.frame.encode = none :=
  blockOf_of_ne (planned_of_mem h step hmem).dir
    (command_ne_of_plan h hmem (p := .write) (by decide) hne)

/-- **The blocks of a flash plan** are those that `explain` lists. -/
theorem blocks_of_plan (h : plan info (.flash image writeOptions) opts = .ok steps) :
    (requests steps).filterMap blockOf = (cmdExplain image).filterMap ExplainLine.addrAck := by
  obtain ⟨_, -, hle, -⟩ := plan_flash h
  have hothers : ∀ step ∈ steps, step.isWrite = false → blockOf step.frame.encode = none := by
    exact fun step hmem hwrite => blockOf_of_plan h hmem (beq_eq_false_iff_ne.mp hwrite)
  rw [filterMap_requests hothers, writes_of_plan h, addrAck_cmdExplain, writeSteps_eq, requests,
    List.map_map, List.filterMap_map, ← List.filterMap_eq_map]
  refine List.filterMap_congr fun i hi => ?_
  have hi' := List.mem_range.mp hi
  have hwrites := writesAt_writeStep image opts (2 * eraseBlocksFor image.length) hle hi'
  rw [Function.comp_apply, Function.comp_apply, blockOf_encode hwrites (length_block hi'),
    ← blockAck_eq]
  rfl

/-- **A flash plan erases** as many blocks as `explain` says. -/
theorem counts_of_plan (h : plan info (.flash image writeOptions) opts = .ok steps) :
    (requests steps).filterMap countOf = (cmdExplain image).filterMap ExplainLine.eraseCount := by
  obtain ⟨_, -, hle, -⟩ := plan_flash h
  have hothers : ∀ step ∈ steps, (step.phase == .erase) = false →
      countOf step.frame.encode = none := by
    exact fun step hmem herase => countOf_of_ne (planned_of_mem h step hmem).dir
      (command_ne_of_plan h hmem (p := .erase) (by decide) (beq_eq_false_iff_ne.mp herase))
  have hcount : countOf (eraseStep (eraseBlocksFor image.length) opts).frame.encode =
      some (eraseBlocksFor image.length) := by
    rw [countOf, payloadOf_encode rfl]
    show some (UInt8.ofNat (eraseBlocksFor image.length)).toNat = _
    rw [UInt8.toNat_ofNat', Nat.mod_eq_of_lt (Nat.lt_succ_of_le hle)]
  rw [filterMap_requests hothers, erases_of_plan h, eraseCount_cmdExplain]
  exact List.filterMap_cons_some hcount

/-- A step that writes a block expects its sum. -/
theorem expect_of_blockOf (h : plan info (.flash image writeOptions) opts = .ok steps)
    {step : Step} (hmem : step ∈ steps) {block : ℕ × UInt8}
    (hb : blockOf step.frame.encode = some block) : step.expect = .blockAck block.2 := by
  have hw : step.phase = .write := by
    by_contra hne
    rw [blockOf_of_plan h hmem hne] at hb
    cases hb
  obtain ⟨addr, sent, -, hwrites, hlen, hexpect⟩ := write_of_plan h hmem hw
  rw [blockOf_encode hwrites hlen] at hb
  cases hb
  exact hexpect

end Plan

/-! ### What a session has confirmed -/

/-- Two lists that correspond, and whose elements yield the same, yield the same lists. -/
theorem filterMap_eq_of_forall₂ {α β γ : Type} {R : α → β → Prop} {f : α → Option γ}
    {g : β → Option γ} {l : List α} {l' : List β} (h : List.Forall₂ R l l')
    (heq : ∀ a ∈ l, ∀ b, R a b → g b = f a) : l'.filterMap g = l.filterMap f := by
  induction h with
  | nil => rfl
  | @cons a b l l' hab _ ih =>
      obtain ⟨ha, hl⟩ := List.forall_mem_cons.mp heq
      rw [List.filterMap_cons, List.filterMap_cons, ha b hab, ih hl]

/-- **What is confirmed** where the first `n` steps are answered: their blocks. -/
theorem confirmed_eq {steps : List Step} {h : List Session.Event} {s : Session} {n : ℕ}
    (tr : Tracks steps h s) (hn : n ≤ s.issued)
    (hanswers : List.Forall₂ Answers (due steps n) (accepted h))
    (hexpect : ∀ step ∈ steps, ∀ block,
      blockOf step.frame.encode = some block → step.expect = .blockAck block.2) :
    confirmed h = (requests (steps.take n)).filterMap blockOf := by
  have hanswer : ∀ d ∈ due steps n, ∀ reply, Answers d reply →
      (((sends h)[reply.1]?).bind fun x => (blockOf x.bytes).bind fun block =>
        reply.2.payload.head?.map fun ack => (block.1, ack)) = blockOf d.2.frame.encode := by
    rintro ⟨k, step⟩ hd ⟨j, f⟩ ⟨hindex, -, haccepts⟩
    obtain rfl : j = k := hindex
    obtain ⟨hlt, hstep, -⟩ := mem_due.mp hd
    have hsend : (sends h)[j]? = some (step.send j) := by
      rw [tr.sends_eq, List.getElem?_mapIdx, List.getElem?_take_of_lt (hlt.trans_le hn), hstep]
      rfl
    have hbytes : (step.send j).bytes = step.frame.encode := rfl
    rw [hsend, Option.bind_some, hbytes]
    cases hb : blockOf step.frame.encode with
    | none => rfl
    | some block =>
        rw [hexpect step (List.mem_of_getElem? hstep) block hb] at haccepts
        rw [Option.bind_some, haccepts.2]
        rfl
  have hsteps : ((steps.take n).mapIdx Prod.mk).map Prod.snd = steps.take n :=
    List.ext_getElem (by simp) (by simp)
  rw [confirmed, filterMap_eq_of_forall₂ hanswers hanswer, due, requests,
    List.filterMap_filter, List.filterMap_map]
  conv_rhs => rw [← hsteps, List.filterMap_map]
  refine List.filterMap_congr fun d hd => ?_
  have hmem : d.2 ∈ steps := List.mem_of_mem_take (hsteps ▸ List.mem_map_of_mem hd)
  cases hb : blockOf d.2.frame.encode with
  | none => simp [hb]
  | some block => simp [hb, Step.expectReply, hexpect d.2 hmem block hb]

/-! ### `explain` and `write` -/

/-- The counts of the erases, the blocks that are written, and the blocks that are confirmed. -/
structure Summary where
  counts : List ℕ
  blocks : List (ℕ × UInt8)
  confirmed : List (ℕ × UInt8)
  deriving DecidableEq, Repr

/-- As far as it goes, the one is the other. -/
def Summary.Begins (a b : Summary) : Prop :=
  a.counts <+: b.counts ∧ a.blocks <+: b.blocks ∧ a.confirmed <+: b.confirmed

/-- What happens on the wire. -/
def happened (t : List Driver.Event) : Summary where
  counts := (writeCalls t).filterMap countOf
  blocks := (writeCalls t).filterMap blockOf
  confirmed := confirmed (sessionHistory t)

/-- What is listed: the acks are those of the blocks. -/
def forecast (lines : List ExplainLine) : Summary where
  counts := lines.filterMap ExplainLine.eraseCount
  blocks := lines.filterMap ExplainLine.addrAck
  confirmed := lines.filterMap ExplainLine.addrAck

/-- Nothing at all begins every summary. -/
theorem begins_empty (a : Summary) : Summary.Begins ⟨[], [], []⟩ a :=
  ⟨List.nil_prefix, List.nil_prefix, List.nil_prefix⟩

/-- Pulses do not count. -/
theorem happened_behind_pulses {t₁ : List Driver.Event} {k : ℕ}
    (hpulses : writeCalls t₁ = List.replicate k [syncByte]) (hnone : sessionHistory t₁ = [])
    (t : List Driver.Event) : happened (t₁ ++ t) = happened t := by
  have hcalls : ∀ {β : Type} (g : Bytes → Option β), g [syncByte] = none →
      (writeCalls (t₁ ++ t)).filterMap g = (writeCalls t).filterMap g := by
    intro β g hg
    rw [writeCalls_append, hpulses, List.filterMap_append, filterMap_pulses hg, List.nil_append]
  rw [happened, happened, hcalls countOf (by decide), hcalls blockOf (by decide),
    sessionHistory_append, hnone, List.nil_append]

section Run

variable {info : TargetInfo} {image : Bytes} {writeOptions : Bool} {opts : SessionOptions}
  {steps : List Step} {t : List Driver.Event} {s : Session} {a b n : ℕ}

/-- What happens in a run of a flash plan, in terms of its steps. -/
theorem happened_eq (hplan : plan info (.flash image writeOptions) opts = .ok steps)
    (hext : Extent steps t s a b) (hn : n ≤ s.issued)
    (hanswers : List.Forall₂ Answers (due steps n) (accepted (sessionHistory t))) :
    happened t =
      { counts := (requests (steps.take b)).filterMap countOf
        blocks := (requests (steps.take b)).filterMap blockOf
        confirmed := (requests (steps.take n)).filterMap blockOf } := by
  rw [happened, hext.writeCalls_eq, confirmed_eq hext.tracks hn hanswers fun step hmem block =>
    expect_of_blockOf hplan hmem]

/-- What is listed for an image, in terms of the steps of its plan. -/
theorem forecast_eq (hplan : plan info (.flash image writeOptions) opts = .ok steps) :
    forecast (cmdExplain image) =
      { counts := (requests steps).filterMap countOf
        blocks := (requests steps).filterMap blockOf
        confirmed := (requests steps).filterMap blockOf } := by
  rw [forecast, counts_of_plan hplan, blocks_of_plan hplan]

/-- **A run of a flash plan** goes by what is listed for its image; and where it ends with `Ok`,
all of it has happened. -/
theorem run_forecast {w : World} {drain : DrainConfig} {fuel : ℕ} {r : Except Halt Session}
    (hplan : plan info (.flash image writeOptions) opts = .ok steps)
    (hrun : runFresh w drain fuel steps = (r, t)) :
    (happened t).Begins (forecast (cmdExplain image)) ∧
      ∀ s', r = .ok s' → happened t = forecast (cmdExplain image) := by
  obtain ⟨-, s, a, b, hext, -, hok⟩ := run_extent hrun
  rw [forecast_eq hplan]
  constructor
  · have hissued : s.index ≤ s.issued := by
      rw [issued]
      split <;> omega
    rw [happened_eq hplan hext hissued hext.tracks.answered]
    have hinitial : ∀ {β : Type} (g : Bytes → Option β) (n : ℕ),
        (requests (steps.take n)).filterMap g <+: (requests steps).filterMap g :=
      fun g n => ((List.take_prefix n steps).map _).filterMap g
    exact ⟨hinitial countOf b, hinitial blockOf b, hinitial blockOf s.index⟩
  · intro s' hs'
    obtain ⟨rfl, hanswers⟩ := hok s' hs'
    have hissued : steps.length ≤ s.issued := by
      have hsends := hext.le.trans hext.le_sends
      rw [length_sends hext.tracks] at hsends
      exact hsends.trans (Nat.min_le_left _ _)
    rw [happened_eq hplan hext hissued hanswers, List.take_of_length_le hext.le,
      List.take_length]

end Run

/-- **A session that programs an image** goes by what is listed for it. -/
theorem session_forecast (w : World) (opts : SessionOptions) (wait : ℕ) (drain : DrainConfig)
    (image : Bytes) (writeOptions : Bool) (fuel : ℕ) :
    let out := session w opts wait drain (.flash image writeOptions) fuel []
    (happened out.2).Begins (forecast (cmdExplain image)) ∧
      (out.1 = .ok () → happened out.2 = forecast (cmdExplain image)) := by
  intro out
  obtain ⟨t₁, t₂, k, ht, hpulses, hnone, hrest⟩ :=
    session_phases w opts wait drain (.flash image writeOptions) fuel
  have hhappened : happened out.2 = happened t₂ := by
    rw [show out.2 = t₁ ++ t₂ from ht, happened_behind_pulses hpulses hnone]
  rw [hhappened]
  obtain ⟨rfl, e, he, -⟩ | ⟨status, info, steps, r, -, -, hplan, hrun, hr⟩ := hrest
  · refine ⟨begins_empty _, fun hok => ?_⟩
    rw [show out.1 = .error e from he] at hok
    cases hok
  · obtain ⟨hbegins, hall⟩ := run_forecast hplan hrun
    refine ⟨hbegins, fun hok => ?_⟩
    rw [show out.1 = _ from hr] at hok
    obtain halt | s' := r
    · cases hok
    · exact hall s' rfl

/-- **`explain` forecasts `write`.** For two command lines that name one file, one for `explain`
and one that programs it, whatever the ports, the chip and the wire do: both fail with the same
complaint, before any port is opened; or `explain` prints the notes and the listing of the image,
and what happens in the other session goes by the listing as far as it goes. The frames that are
written, as the bootloader reads them, erase the count of blocks and write the addresses and the
sums that were printed, in this order, and each block that is confirmed is so with the ack that
was printed for it. Where the session succeeds, all that was printed has happened. -/
theorem main_forecasts {m : Machine} {argv argv' : List String} {args args' : Args}
    {path : String} {rest rest' : List String}
    (hargs : parseArgs argv = .ok args) (hcmd : args.command = some "explain")
    (hpath : args.positional = path :: rest) (hargs' : parseArgs argv' = .ok args')
    (hcmd' : args'.command = some "write" ∨ args'.command = some "flash")
    (hpath' : args'.positional = path :: rest') (fuel fuel' : ℕ) :
    (∃ e : Exit, e.Early ∧ main m argv fuel = (.error e, []) ∧
      main m argv' fuel' = (.error e, [])) ∨
    ∃ text img, m.readToString path = .ok text ∧ IntelHex.parse text = .ok img ∧
      main m argv fuel = (.ok ((if args.quiet then [] else imageNotes path img) ++
        (cmdExplain img.bytes).map ExplainLine.text), []) ∧
      (happened (main m argv' fuel').2).Begins (forecast (cmdExplain img.bytes)) ∧
      ∀ out, (main m argv' fuel').1 = .ok out →
        happened (main m argv' fuel').2 = forecast (cmdExplain img.bytes) := by
  obtain ⟨cmd', hcommand', hnames⟩ :
      ∃ cmd, args'.command = some cmd ∧ (cmd = "write" ∨ cmd = "flash") := by
    obtain hcmd' | hcmd' := hcmd'
    · exact ⟨_, hcmd', .inl rfl⟩
    · exact ⟨_, hcmd', .inr rfl⟩
  rw [main_of_command fuel hargs hcmd, main_of_command fuel' hargs' hcommand',
    dispatch_of_path hnames hpath']
  simp only [dispatch, hpath]
  obtain ⟨e, hearly, hfile⟩ | ⟨text, img, hread, hparse, hfile⟩ := loadImage_cases m path
  · exact .inl ⟨e, hearly, by simp only [hfile], by simp only [hfile]⟩
  refine .inr ⟨text, img, hread, hparse, by simp only [hfile], ?_⟩
  simp only [hfile]
  obtain ⟨e, -, he⟩ | ⟨port, w, -, -, hrun⟩ :=
    cmdSession_cases m args' (.flash img.bytes args'.writeOptions) fuel'
  · rw [he]
    exact ⟨begins_empty _, fun _ hbad => by cases hbad⟩
  · obtain ⟨hbegins, hall⟩ := session_forecast w args'.sessionOptions args'.wait
      args'.drainConfig img.bytes args'.writeOptions fuel'
    rw [hrun]
    refine ⟨hbegins, fun out hout => hall ?_⟩
    rcases hr : (session w args'.sessionOptions args'.wait args'.drainConfig
      (.flash img.bytes args'.writeOptions) fuel' []).1 with e | _
    · rw [hr] at hout
      cases hout
    · rfl

/-- `main_forecasts` for a file of three bytes, and the captured target. -/
theorem main_forecasts_bench :
    let t := (main benchMachine ["write", "a.hex", "--port", "tty", "--skip-options"] 40).2
    happened t = forecast (cmdExplain [0x02, 0x00, 0x4C]) := by
  intro t
  have himage : IntelHex.parse ":0300000002004CAF\n:00000001FF\n".toList =
      .ok { bytes := [0x02, 0x00, 0x4C], lowestAddr := 0, gapBytes := 0 } := by decide +kernel
  have hok :
      (main benchMachine ["write", "a.hex", "--port", "tty", "--skip-options"] 40).1.toOption =
        some [doneLine (.flash [0x02, 0x00, 0x4C] false)] := by decide +kernel
  have hargs : parseArgs ["explain", "a.hex"] =
      .ok { Args.default with command := some "explain", positional := ["a.hex"] } := rfl
  have hargs' : parseArgs ["write", "a.hex", "--port", "tty", "--skip-options"] =
      .ok { Args.default with
        command := some "write", positional := ["a.hex"], port := some "tty",
        writeOptions := false } := rfl
  obtain ⟨e, -, -, he⟩ | ⟨text, img, hread, hparse, -, -, hall⟩ :=
    main_forecasts (m := benchMachine) hargs rfl rfl hargs' (.inl rfl) rfl 0 40
  · rw [he] at hok
    cases hok
  · cases hread
    obtain rfl := Except.ok.inj (hparse.symm.trans himage)
    cases hr : (main benchMachine ["write", "a.hex", "--port", "tty", "--skip-options"] 40).1 with
    | error e =>
        rw [hr] at hok
        cases hok
    | ok out => exact hall out hr

end Stcbsl
