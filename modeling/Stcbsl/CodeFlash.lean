import Stcbsl.Device
import Stcbsl.ReplyLaw

/-!
# What a Plan Does to the Code Flash

The block count of the erase frame comes from the job by three routes: an explicit count,
the capacity of the part, or the length of the image. The writes then fill the erased
region, 128 bytes at a time.

## Staying inside

A plan stays inside the code flash when the erased region and every write end within the
capacity of the part. The writes are never the problem, since they end where the erase does. The
capacity of the part bounds itself, and an image that does not fit is refused, but an explicit
count is taken as it is; so the condition is one on that count, in terms of the job and the target
only.

## The erase reply

The reply to the erase is known from captures: it repeats the chip identity and continues with
bytes that nobody has explained. The session checks its command and its length. What is bound to
the chip by such a check is the subject of the last part.

## Main results

* `plan_flash_layout` — the steps of a flash plan, with every address, count and data byte.
* `within_code_flash_iff` — a plan stays inside the code flash **iff** an explicit count,
  where there is one, is even and within the capacity.
* `erase_reply_bound_iff` — a reply passes as the erase reply by its length alone, so that
  it is bound to the chip identity **iff** it is no such reply of another chip.
-/

namespace Stcbsl

open Session Stc89

/-! ### Write frames -/

/-- A write frame as the bootloader reads it: address, count and data. -/
structure WritesAt (f : Frame) (addr count : ℕ) (data : Bytes) : Prop where
  dir : f.dir = .hostToMcu
  cmd : f.cmd = cmdWrite
  payload : ∃ a3 a2 a1 a0 c1 c0, f.payload = a3 :: a2 :: a1 :: a0 :: c1 :: c0 :: data ∧
    (u32FromBeBytes a3 a2 a1 a0).toNat = addr ∧ (u16FromBeBytes c1 c0).toNat = count

namespace Stc89

/-- What the bootloader reads in a write frame is what was put into it. -/
theorem writesAt_writeFrame (addr : UInt32) (data : Bytes) :
    WritesAt (writeFrame addr data) addr.toNat (UInt16.ofNat data.length).toNat data where
  dir := rfl
  cmd := rfl
  payload := ⟨_, _, _, _, _, _, rfl, by rw [u32FromBeBytes_split],
    by rw [u16FromBeBytes_toBeBytes]⟩

/-- **The `i`-th write step** of a region of one byte's worth of blocks: its address does not
overflow, and its frame carries 128 bytes. -/
theorem writesAt_writeStep (image : Bytes) {blocks i : ℕ} (opts : SessionOptions) (total : ℕ)
    (hblocks : blocks ≤ 0xFF) (hi : i < 2 * blocks) :
    WritesAt (writeStep opts total i (block image blocks i)).frame (i * 128) 128
      (block image blocks i) := by
  have haddr : (UInt32.ofNat (i * writeBlock)).toNat = i * 128 := by
    rw [UInt32.toNat_ofNat', writeBlock, Nat.mod_eq_of_lt (by omega)]
  have hcount : (UInt16.ofNat (block image blocks i).length).toNat = 128 := by
    rw [length_block hi]
    rfl
  have h := writesAt_writeFrame (UInt32.ofNat (i * writeBlock)) (block image blocks i)
  rwa [haddr, hcount] at h

/-- The blocks of the padded image, put together again. -/
theorem flatten_blocks (image : Bytes) (blocks : ℕ) :
    ((List.range (2 * blocks)).map (block image blocks)).flatten = padded image blocks := by
  have hpieces : ∀ k, ((List.range k).map (block image blocks)).flatten =
      (padded image blocks).take (k * writeBlock) := by
    intro k
    induction k with
    | zero => simp
    | succ k ih =>
        rw [List.range_succ, List.map_append, List.flatten_append, ih, Nat.succ_mul, List.take_add]
        simp [block]
  rw [hpieces, List.take_of_length_le]
  rw [length_padded]
  simp only [eraseBlock, writeBlock]
  omega

/-! ### Capacities -/

/-- The known parts have a whole number of erase granules, few enough for one byte. -/
theorem knownChips_capacity :
    ∀ k ∈ knownChips, 0 < k.2.2.1 ∧ k.2.2.1 % eraseGranule = 0 ∧
      k.2.2.1 ≤ 0xFF * eraseBlock := by
  decide

/-- A known capacity is a whole number of erase granules. -/
theorem capacity_of_parseStatus {status : Frame} {baud : UInt32} {info : TargetInfo} {cap : ℕ}
    (h : parseStatus status baud = .ok info) (hcap : info.codeFlash = some cap) :
    0 < cap ∧ cap % 512 = 0 ∧ cap ≤ 0xFF * 256 := by
  obtain ⟨k, hk, -, rfl⟩ := (readOff_of_parseStatus h).capacity hcap
  exact knownChips_capacity k hk

/-- An image within the capacity has its erased region within it. -/
theorem region_le_capacity {n cap : ℕ} (hcap : cap % 512 = 0) (h : n ≤ cap) :
    eraseBlocksFor n * 256 ≤ cap := by
  simp only [eraseBlocksFor, eraseGranule]
  omega

/-- Different block counts make different erase frames. -/
theorem eraseFrame_inj {a b : UInt8} (h : eraseFrame a = eraseFrame b) : a = b := by
  injection h with _ _ hpayload
  injection hpayload

end Stc89

/-! ### The layout of a flash plan -/

/-- **Every byte of a flash plan.** For an image that fits a part of known capacity, at a
transfer rate the timer can make, planning succeeds, and the steps are: probe, commit, four
identical link tests that carry the chip identity, one erase of `2 * ⌈len / 512⌉` blocks,
two writes for each block with ascending addresses, the options where wanted, and run. The
data of the writes is the image and `0xFF` up to the end of the erased region, less than
one granule of it. -/
theorem plan_flash_layout {status : Frame} {baud : UInt32} {info : TargetInfo} {cap : ℕ}
    (hstatus : parseStatus status baud = .ok info) (hcap : info.codeFlash = some cap)
    {image : Bytes} (hpos : 1 ≤ image.length) (hlen : image.length ≤ cap)
    {opts : SessionOptions} {reload : UInt8}
    (hreload : timerReload info.measuredHz opts.transferBaud = .ok reload)
    (writeOptions : Bool) :
    let nn := 2 * ((image.length + 511) / 512)
    nn ≤ 0xFF ∧ nn * 256 - image.length < 512 ∧ image.length ≤ nn * 256 ∧
    ∃ links writes : List Step,
      plan info (.flash image writeOptions) opts = .ok
        (baudProbeStep reload opts :: baudCommitStep reload opts :: (links ++
          eraseStep nn opts :: (writes ++ (if writeOptions then [optionsStep info opts] else []) ++
            [runStep opts]))) ∧
      links.map Step.frame = List.replicate 4 (linkTestFrame info.chipId) ∧
      (eraseStep nn opts).frame = eraseFrame (UInt8.ofNat nn) ∧
      writes.length = nn * 2 ∧
      (∀ i w, writes[i]? = some w → ∃ data addr,
        w.phase = .write ∧ WritesAt w.frame (i * 128) 128 data ∧ data.length = 128 ∧
        w.writeAddr = some addr ∧ addr.toNat = i * 128 ∧ w.expect = .blockAck (sumMod256 data)) ∧
      (writes.map fun w => w.frame.payload.drop 6).flatten =
        image ++ List.replicate (nn * 256 - image.length) 0xFF := by
  obtain ⟨-, hgranule, hmax⟩ := capacity_of_parseStatus hstatus hcap
  have hregion := region_le_capacity hgranule hlen
  intro nn
  have hnn : nn = eraseBlocksFor image.length := rfl
  have hle : nn ≤ 0xFF := by omega
  have hpad : nn * 256 - image.length < 512 ∧ image.length ≤ nn * 256 := by omega
  have hne : Job.flash image writeOptions ≠ .identify := Job.noConfusion
  have hblocks : eraseBlocks info (.flash image writeOptions) hne = .ok nn := by
    refine eraseBlocks_flash_iff.mpr ⟨List.ne_nil_of_length_pos hpos, ?_, hnn⟩
    intro cap' hcap'
    rw [hcap, Option.some.injEq] at hcap'
    omega
  refine ⟨hle, hpad.1, hpad.2, (List.range linkTestRepeats).map (linkTestStep info opts),
    writeSteps image nn opts, ?_, rfl, rfl, ?_, ?_, ?_⟩
  · exact (plan_eq_ok_iff hne).mpr ⟨reload, nn, hreload, hblocks, by omega, hle, rfl⟩
  · rw [writeSteps_eq, List.length_map, List.length_range, Nat.mul_comm]
  · intro i w hw
    rw [writeSteps_eq, List.getElem?_map, Option.map_eq_some_iff] at hw
    obtain ⟨j, hj, rfl⟩ := hw
    obtain ⟨hi, rfl⟩ := List.getElem?_eq_some_iff.mp hj
    rw [List.length_range] at hi
    rw [List.getElem_range]
    refine ⟨block image nn i, UInt32.ofNat (i * writeBlock), rfl,
      writesAt_writeStep image opts _ hle hi, length_block hi, rfl, ?_, ?_⟩
    · rw [UInt32.toNat_ofNat', writeBlock, Nat.mod_eq_of_lt (by omega)]
    · rw [← blockAck_eq]
      rfl
  · rw [writeSteps_eq, List.map_map]
    exact (flatten_blocks image nn).trans (padded_eq hpad.2)

/-- `plan_flash_layout` for a three-byte image on the captured target. -/
theorem plan_flash_layout_bench :
    ∃ steps, plan benchTarget (.flash [0x02, 0x00, 0x4C] true) .default = .ok steps ∧
      steps.length = 13 := by
  have hreload : timerReload benchTarget.measuredHz SessionOptions.default.transferBaud =
      .ok 0xFD := by decide +kernel
  have hpos : 1 ≤ ([0x02, 0x00, 0x4C] : Bytes).length := by decide
  obtain ⟨-, -, -, links, writes, hplan, hlinks, -, hwrites, -⟩ :=
    plan_flash_layout parseStatus_benchStatus rfl hpos (by decide) hreload true
  refine ⟨_, hplan, ?_⟩
  have hlen := congrArg List.length hlinks
  simp only [List.length_map, List.length_replicate] at hlen
  simp [hlen, hwrites]

/-! ### Staying inside the code flash -/

/-- The frames of a plan stay inside a code flash of `cap` bytes: the erase covers whole
granules of it, and the writes stay inside the erased region. -/
structure WithinCodeFlash (cap : ℕ) (steps : List Step) : Prop where
  erase : ∀ e ∈ steps, e.frame.cmd = cmdErase → ∃ nn : UInt8, e.frame = eraseFrame nn ∧
    nn.toNat % 2 = 0 ∧ 2 ≤ nn.toNat ∧ nn.toNat * 256 ≤ cap ∧
    ∀ w ∈ steps, w.frame.cmd = cmdWrite → ∃ addr data,
      WritesAt w.frame addr 128 data ∧ data.length = 128 ∧ addr + 128 ≤ nn.toNat * 256
  write : ∀ w ∈ steps, w.frame.cmd = cmdWrite → ∃ e ∈ steps, e.frame.cmd = cmdErase

/-- The block count of a job, where an explicit one is even and within the capacity. -/
theorem blocks_within {status : Frame} {baud : UInt32} {info : TargetInfo} {cap : ℕ} {job : Job}
    {hjob : job ≠ .identify} {blocks : ℕ} (hstatus : parseStatus status baud = .ok info)
    (hcap : info.codeFlash = some cap)
    (hexplicit : ∀ n, job = .erase (some n) → n.toNat % 2 = 0 ∧ n.toNat * 256 ≤ cap)
    (hb : eraseBlocks info job hjob = .ok blocks) : blocks % 2 = 0 ∧ blocks * 256 ≤ cap := by
  obtain ⟨-, hgranule, -⟩ := capacity_of_parseStatus hstatus hcap
  match job, hjob, hb with
  | .erase (some n), _, hb =>
      cases hb
      exact hexplicit n rfl
  | .erase none, _, hb =>
      simp only [eraseBlocks, hcap, Except.ok.injEq, eraseBlock] at hb
      omega
  | .flash image _, _, hb =>
      obtain ⟨-, hfits, rfl⟩ := eraseBlocks_flash_iff.mp hb
      have := region_le_capacity hgranule (hfits cap hcap)
      exact ⟨by rw [eraseBlocksFor]; omega, this⟩

/-- **A plan stays inside the code flash exactly if its explicit block count does.** A count
taken from the capacity or from the image is even and within the capacity; one given with
the job is checked for neither. -/
theorem within_code_flash_iff {status : Frame} {baud : UInt32} {info : TargetInfo} {cap : ℕ}
    {job : Job} {opts : SessionOptions} {steps : List Step}
    (hstatus : parseStatus status baud = .ok info) (hcap : info.codeFlash = some cap)
    (hplan : plan info job opts = .ok steps) :
    WithinCodeFlash cap steps ↔
      ∀ n, job = .erase (some n) → n.toNat % 2 = 0 ∧ n.toNat * 256 ≤ cap := by
  have hof := stepOf_of_plan hplan
  constructor
  · rintro h n rfl
    obtain ⟨_, blocks, -, hb, -, -, rfl⟩ := (plan_eq_ok_iff (by simp)).mp hplan
    cases hb
    obtain ⟨nn, hframe, heven, -, hle, -⟩ := h.erase (eraseStep n.toNat opts) (by simp) rfl
    have hnn : UInt8.ofNat n.toNat = nn := eraseFrame_inj hframe
    rw [UInt8.ofNat_toNat] at hnn
    exact ⟨hnn ▸ heven, hnn ▸ hle⟩
  · intro hexplicit
    refine ⟨?_, ?_⟩
    · intro e he hcmd
      cases hof e he with
      | @erase hjob blocks hb hpos hle =>
          obtain ⟨heven, hcapacity⟩ := blocks_within hstatus hcap hexplicit hb
          have hnn : (UInt8.ofNat blocks).toNat = blocks := by
            rw [UInt8.toNat_ofNat', Nat.mod_eq_of_lt (by omega)]
          refine ⟨UInt8.ofNat blocks, rfl, ?_⟩
          rw [hnn]
          refine ⟨heven, by omega, hcapacity, ?_⟩
          intro w hw hwcmd
          cases hof w hw with
          | @write image writeOptions hflash hle' i hi =>
              subst hflash
              obtain ⟨-, -, rfl⟩ := eraseBlocks_flash_iff.mp hb
              exact ⟨i * 128, _, writesAt_writeStep image opts _ hle hi, length_block hi, by omega⟩
          | _ => cases hwcmd
      | _ => cases hcmd
    · intro w hw hcmd
      cases hof w hw with
      | @write image writeOptions hflash hle i hi =>
          subst hflash
          obtain ⟨_, -, -, rfl⟩ := plan_flash hplan
          exact ⟨eraseStep (eraseBlocksFor image.length) opts, by simp, rfl⟩
      | _ => cases hcmd

/-- `within_code_flash_iff` for the captured target and two blocks. -/
theorem within_code_flash_iff_bench : WithinCodeFlash 8192 benchErase :=
  (within_code_flash_iff parseStatus_benchStatus rfl plan_benchErase).mpr (by
    rintro n hn
    cases hn
    decide)

/-- An erase of 34 blocks is planned for a part with 32 of them: it reaches past the code
flash. -/
theorem erase_past_code_flash :
    parseStatus benchStatus 2400 = .ok benchTarget ∧ benchTarget.codeFlash = some 8192 ∧
      ∃ steps, plan benchTarget (.erase (some 34)) .default = .ok steps ∧
        ¬ WithinCodeFlash 8192 steps := by
  refine ⟨parseStatus_benchStatus, rfl, _, rfl, ?_⟩
  intro h
  obtain ⟨nn, hframe, -, -, hle, -⟩ := h.erase (eraseStep 34 .default) (by simp) rfl
  obtain rfl : 34 = nn := eraseFrame_inj hframe
  exact absurd hle (by decide)

/-! ### The erase reply -/

/-- **The erase reply is bound to its length only.** In every state of a session that awaits
the erase reply, a frame is accepted exactly if it is a seven-byte reply of the chip
identified, unless it is a seven-byte reply that starts with another identity: that one is
accepted as well. -/
theorem erase_reply_bound_iff {info : TargetInfo} {job : Job} {opts : SessionOptions}
    {steps : List Step} (hplan : plan info job opts = .ok steps) {calls : List Call} {step : Step}
    (ha : ((Session.new steps).runCalls calls).2.awaiting = true)
    (hs : steps[((Session.new steps).runCalls calls).2.index]? = some step)
    (hphase : step.phase = .erase) (r : Frame) :
    (((((Session.new steps).runCalls calls).2.onReply r).1 = .ok () ↔
        r.dir = .mcuToHost ∧ r.cmd = 0x80 ∧ r.payload.length = 7 ∧
          r.payload.take 2 = info.chipId) ↔
      ¬ (r.dir = .mcuToHost ∧ r.cmd = 0x80 ∧ r.payload.length = 7 ∧
          r.payload.take 2 ≠ info.chipId)) := by
  have t := tracks_runCalls steps calls
  have haccepts : step.Accepts r ↔
      r.dir = .mcuToHost ∧ r.cmd = 0x80 ∧ r.payload.length = 7 := by
    cases stepOf_of_plan hplan step (List.mem_of_getElem? hs) with
    | erase => exact Iff.rfl
    | _ => cases hphase
  rw [Session.onReply_eq_ok_iff, t.steps_eq, hs, ha]
  simp only [true_and, Option.some.injEq, exists_eq_left', haccepts]
  tauto

/-- The calls that bring the bench erase session to the point where it awaits the erase
reply. -/
def upToErase : List Session.Call :=
  [.nextAction, .onReply (.mcu cmdBaudProbe (baudProbeFrame 0xFD).payload),
    .nextAction, .onReply (.mcu cmdBaudCommit (baudCommitFrame 0xFD).payload)] ++
  (List.replicate 4 [.nextAction, .onReply (.mcu replyAck [])]).flatten ++ [.nextAction]

/-- `erase_reply_bound_iff` for the captured erase reply. -/
theorem erase_reply_bound_iff_bench :
    (((Session.new benchErase).runCalls upToErase).2.onReply
      (.mcu 0x80 [0xF0, 0x02, 0xC4, 0x2B, 0x01, 0x83, 0x74])).1 = .ok () := by
  have ha : ((Session.new benchErase).runCalls upToErase).2.awaiting = true := by rfl
  have hs : benchErase[((Session.new benchErase).runCalls upToErase).2.index]? =
      some (eraseStep 2 .default) := by rfl
  exact ((erase_reply_bound_iff plan_benchErase ha hs rfl _).mpr (by
    rintro ⟨-, -, -, hne⟩
    exact hne rfl)).mpr ⟨rfl, rfl, rfl, rfl⟩

/-- A reply that starts with another identity passes as proof of erasure. -/
theorem foreign_erase_reply :
    parseStatus benchStatus 2400 = .ok benchTarget ∧
      plan benchTarget (.erase (some 2)) .default = .ok benchErase ∧
      let s := ((Session.new benchErase).runCalls upToErase).2
      let reply := Frame.mcu 0x80 [0xAA, 0x55, 0x00, 0x00, 0x00, 0x00, 0x00]
      s.awaiting = true ∧ benchErase[s.index]? = some (eraseStep 2 .default) ∧
        (s.onReply reply).1 = .ok () ∧ reply.payload.take 2 ≠ benchTarget.chipId :=
  ⟨parseStatus_benchStatus, plan_benchErase, rfl, rfl, rfl, by decide⟩

end Stcbsl
