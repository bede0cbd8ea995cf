import Stcbsl.Session

/-!
# The STC89 Family

What `protocol/mod.rs` and `protocol/stc89.rs` compute: the target's description from its
status frame, and from that description, a job and the session options the list of steps
that does the job. The planner touches no wire; everything a session will ever send is
fixed here.

## The order of this module

First the constants and the frames of the family, each under its own name and with the values of
the source, then the status frame, then the planner with one definition for each step that it
pushes. What follows is derived from the planner once and used by all modules above it: when
planning succeeds and what it plans (`plan_eq_ok_iff`), of what kind each step is
(`stepOf_of_plan`, `planned_of_mem`), in which phase (`phases_of_plan`), and where the rate
changes (`switches_of_plan`). Only a comparison of two plans looks at `plan` itself again.

A captured status packet and the erase session of its target stand at the end. They are the
values at which later results are looked at.

## Main results

* `readOff_of_parseStatus` — the fields of an accepted status frame.
* `plan_eq_ok_iff` — when planning succeeds, and the steps it plans.
* `phases_of_plan` — the phases of a plan, in order.
* `stepOf_of_plan` — what a plan consists of.
* `planned_of_mem` — each step sends the command of its phase, and the run step alone
  expects no reply.
* `switches_of_plan` — the first two steps alone change the baud rate.
-/

namespace Stcbsl

/-! ### Jobs, options and targets -/

/-- What the caller wants done in this session. -/
inductive Job
  | identify
  | erase (blocks : Option UInt8)
  | flash (image : Bytes) (writeOptions : Bool)
  deriving DecidableEq, Repr

/-- Knobs that are host policy rather than protocol. -/
structure SessionOptions where
  handshakeBaud : UInt32
  transferBaud : UInt32
  replyTimeoutMs : UInt64
  eraseTimeoutMs : UInt64
  deriving DecidableEq, Repr

/-- `SessionOptions::default`. -/
def SessionOptions.default : SessionOptions :=
  { handshakeBaud := 2400, transferBaud := 115200, replyTimeoutMs := 2000,
    eraseTimeoutMs := 20000 }

/-- Everything the host learned from the unsolicited status packet. -/
structure TargetInfo where
  family : String
  chipId : Bytes
  model : Option String
  codeFlash : Option ℕ
  eepromFlash : Option ℕ
  bslVersion : String
  measuredHz : UInt64
  freqWords : List UInt16
  optionBytes : Bytes
  rawStatus : Bytes
  deriving DecidableEq, Repr

/-- The reasons a status frame or a job is refused. -/
inductive ProtocolError
  | notAStatusFrame (cmd : UInt8)
  | shortStatus (got want : ℕ)
  | inconsistentFrequency (words : List UInt16)
  | implausibleFrequency (hz : UInt64)
  | unreachableBaud (baud : UInt32) (reload : Int64)
  | imageTooLarge (image capacity : ℕ)
  | emptyImage
  | unknownChipSize (chipId : Bytes)
  | eraseTooLarge (blocks : ℕ)
  deriving DecidableEq, Repr

/-! ### Constants -/

/-- Status packet, MCU to host. -/
def cmdStatus : UInt8 := 0x00
/-- Write one 128-byte block. -/
def cmdWrite : UInt8 := 0x00
/-- Baud probe, echoed. -/
def cmdBaudProbe : UInt8 := 0x8F
/-- Baud commit, echoed. -/
def cmdBaudCommit : UInt8 := 0x8E
/-- Link test at the new baud. -/
def cmdLinkTest : UInt8 := 0x80
/-- Erase blocks of 256 bytes. -/
def cmdErase : UInt8 := 0x84
/-- Write the option byte, echoed. -/
def cmdOptions : UInt8 := 0x8D
/-- Leave the bootloader and run the application, never answered. -/
def cmdRun : UInt8 := 0x82

/-- Status frame payload length. -/
def statusPayloadLen : ℕ := 52
/-- Payload offset of the eight frequency words. -/
def offFreq : ℕ := 0
/-- Number of frequency words. -/
def freqWordCount : ℕ := 8
/-- Payload offset of the BSL version. -/
def offVersion : ℕ := 16
/-- Payload offset of the option byte. -/
def offOption : ℕ := 18
/-- Payload offset of the chip identity. -/
def offChipId : ℕ := 19
/-- Length of the chip identity. -/
def chipIdLen : ℕ := 2
/-- `FREQ_NUM`. -/
def freqNum : UInt64 := 12
/-- `FREQ_DEN`. -/
def freqDen : UInt64 := 7
/-- Lower end of the sanity band for the measured frequency. -/
def freqMinHz : UInt64 := 1000000
/-- Upper end of the sanity band for the measured frequency. -/
def freqMaxHz : UInt64 := 48000000
/-- Bytes 2 to 4 of the baud payloads. -/
def baudConsts : Bytes := [0x00, 0x06, 0xA0]
/-- Trailing byte present only in the probe. -/
def baudProbeTail : UInt8 := 0x81
/-- First four bytes of the link-test payload. -/
def linkTestPrefix : Bytes := [0x00, 0x00, 0x36, 0x01]
/-- Number of link tests. -/
def linkTestRepeats : ℕ := 4
/-- The payload of the MCU's link-test reply. -/
def linkTestAckPayload : Bytes := []
/-- Erase payload filler after the block count. -/
def eraseFill : Bytes := [0x33, 0x33, 0x33, 0x33, 0x33, 0x33]
/-- Payload length of the erase reply. -/
def eraseReplyLen : ℕ := 7
/-- The erase unit. -/
def eraseBlock : ℕ := 256
/-- The granularity the erase count is rounded to. -/
def eraseGranule : ℕ := 512
/-- The write unit. -/
def writeBlock : ℕ := 128
/-- Trailing bytes after the option byte. -/
def optionsTail : Bytes := [0xFF, 0xFF, 0xFF]

/-- Chip identities seen on a bench: the identity, the model, the sizes of the code flash
and of the EEPROM. -/
def knownChips : List (Bytes × String × ℕ × ℕ) :=
  [([0xF0, 0x02], "STC89C52RC/LE52RC", 8 * 1024, 6 * 1024)]

/-! ### Byte order and formatting -/

/-- `u16::to_be_bytes`. -/
def u16ToBeBytes (w : UInt16) : Bytes := [(w >>> 8).toUInt8, w.toUInt8]

/-- The two bytes `to_be_bytes` makes of a word read back as that word. -/
theorem u16FromBeBytes_toBeBytes (w : UInt16) :
    u16FromBeBytes (w >>> 8).toUInt8 w.toUInt8 = w := by
  have hw := w.toNat_lt
  apply UInt16.toNat_inj.mp
  rw [toNat_u16FromBeBytes, toNat_hiByte, UInt16.toNat_toUInt8]
  omega

/-- `u32::to_be_bytes`. -/
def u32ToBeBytes (w : UInt32) : Bytes :=
  [(w >>> 24).toUInt8, (w >>> 16).toUInt8, (w >>> 8).toUInt8, w.toUInt8]

/-- `{:04x}`: lower-case hexadecimal, at least four digits. -/
def hex04 (n : ℕ) : String := String.ofList (List.leftpad 4 '0' (Nat.toDigits 16 n))

/-- `slice::chunks`: consecutive pieces of length `n`, the last one as long as what is
left. -/
def chunks {α : Type} (n : ℕ) (l : List α) : List (List α) :=
  (List.range ((l.length + n - 1) / n)).map fun i => (l.drop (i * n)).take n

/-- `Vec::resize`. -/
def resize {α : Type} (l : List α) (n : ℕ) (a : α) : List α :=
  l.take n ++ List.replicate (n - l.length) a

namespace Stc89

/-! ### Arithmetic and frames -/

/-- `f_osc = word × baud × 12 / 7`. -/
def frequencyHz (word : UInt16) (handshakeBaud : UInt32) : UInt64 :=
  (word.toUInt64 * handshakeBaud.toUInt64 * freqNum) / freqDen

/-- `reload = round(256 − f_osc / (baud × 32))`, as an 8-bit timer reload. -/
def timerReload (fOsc : UInt64) (transferBaud : UInt32) : Except ProtocolError UInt8 :=
  let denom := transferBaud.toUInt64 * 32
  if denom = 0 then .error (.unreachableBaud transferBaud 0)
  else
    -- round(f / denom) in integer arithmetic
    let ticks := (fOsc + denom / 2) / denom
    let reload := (256 : Int64) - ticks.toInt64
    if ¬ (1 ≤ reload ∧ reload ≤ 255) then .error (.unreachableBaud transferBaud reload)
    else .ok reload.toUInt64.toUInt8

/-- The 16-bit big-endian two's-complement form of a reload. -/
def reloadField (reload : UInt8) : Bytes :=
  let v := ((0x10000 : Int32) - (256 - reload.toUInt32.toInt32)).toUInt32.toUInt16
  u16ToBeBytes v

/-- `NN = 2 × ceil(size / 512)`. -/
def eraseBlocksFor (imageLen : ℕ) : ℕ := 2 * ((imageLen + (eraseGranule - 1)) / eraseGranule)

/-- `baud_probe_frame`. -/
def baudProbeFrame (reload : UInt8) : Frame :=
  .host cmdBaudProbe (reloadField reload ++ baudConsts ++ [baudProbeTail])

/-- `baud_commit_frame`. -/
def baudCommitFrame (reload : UInt8) : Frame :=
  .host cmdBaudCommit (reloadField reload ++ baudConsts)

/-- `link_test_frame`. -/
def linkTestFrame (chipId : Bytes) : Frame :=
  .host cmdLinkTest (linkTestPrefix ++ chipId)

/-- `erase_frame`. -/
def eraseFrame (blocks : UInt8) : Frame :=
  .host cmdErase ([blocks] ++ eraseFill)

/-- One write block. -/
def writeFrame (addr : UInt32) (data : Bytes) : Frame :=
  .host cmdWrite (u32ToBeBytes addr ++ u16ToBeBytes (UInt16.ofNat data.length) ++ data)

/-- The per-block ack byte. -/
def blockAck (data : Bytes) : UInt8 := data.foldl (fun a b => a + b) 0

/-- `options_frame`. -/
def optionsFrame (info : TargetInfo) : Frame :=
  .host cmdOptions (info.optionBytes ++ optionsTail)

/-- `run_frame`. -/
def runFrame : Frame := .host cmdRun []

/-! ### The status frame -/

/-- `is_status_frame`. -/
def isStatusFrame (frame : Frame) : Bool :=
  frame.dir == .mcuToHost && frame.cmd == cmdStatus
    && decide (offChipId + chipIdLen ≤ frame.payload.length)

/-- `parse_status`. -/
def parseStatus (frame : Frame) (handshakeBaud : UInt32) : Except ProtocolError TargetInfo :=
  if frame.cmd ≠ cmdStatus ∨ frame.dir ≠ .mcuToHost then .error (.notAStatusFrame frame.cmd)
  else
    let p := frame.payload
    if h : p.length < statusPayloadLen then .error (.shortStatus p.length statusPayloadLen)
    else
      -- every index below is within bounds because of this check
      have hlen : 52 ≤ p.length := Nat.le_of_not_lt h
      let word (i : Fin freqWordCount) : UInt16 :=
        have hi : i.val < 8 := i.isLt
        have h0 : offFreq + i.val * 2 < p.length := by unfold offFreq; omega
        have h1 : offFreq + i.val * 2 + 1 < p.length := by unfold offFreq; omega
        u16FromBeBytes p[offFreq + i.val * 2] p[offFreq + i.val * 2 + 1]
      let words := List.ofFn word
      let word0 := word ⟨0, by decide⟩
      if words.any (fun w => w != word0) then .error (.inconsistentFrequency words)
      else
        let hz := frequencyHz word0 handshakeBaud
        if ¬ (freqMinHz ≤ hz ∧ hz ≤ freqMaxHz) then .error (.implausibleFrequency hz)
        else
          have hv : offVersion + 1 < p.length := by unfold offVersion; omega
          have ho : offOption < p.length := by unfold offOption; omega
          let vmaj := p[offVersion] >>> 4
          let vmin := p[offVersion] &&& 0x0F
          let vletter := Char.ofNat p[offVersion + 1].toNat
          let chipId := p.extract offChipId (offChipId + chipIdLen)
          let known := knownChips.find? fun k => k.1 == chipId
          .ok
            { family := "stc89"
              chipId
              model := known.map fun k => k.2.1
              codeFlash := known.map fun k => k.2.2.1
              eepromFlash := known.map fun k => k.2.2.2
              bslVersion := toString vmaj ++ "." ++ toString vmin ++ vletter.toString
              measuredHz := hz
              freqWords := words
              optionBytes := [p[offOption]]
              rawStatus := p }

/-- What `parse_status` reads off an accepted frame. -/
structure ReadOff (frame : Frame) (info : TargetInfo) : Prop where
  dir : frame.dir = .mcuToHost
  cmd : frame.cmd = cmdStatus
  payload_length : 52 ≤ frame.payload.length
  chipId : ∃ a b, frame.payload[19]? = some a ∧ frame.payload[20]? = some b ∧
    info.chipId = [a, b]
  optionBytes : ∃ b, frame.payload[18]? = some b ∧ info.optionBytes = [b]
  codeFlash : info.codeFlash = (knownChips.find? fun k => k.1 == info.chipId).map fun k => k.2.2.1

/-- The two bytes of the chip identity. -/
theorem extract_chipId {p : Bytes} (h : 52 ≤ p.length) :
    p.extract offChipId (offChipId + chipIdLen) = [p[19], p[20]] := by
  rw [List.extract_eq_take_drop, offChipId, chipIdLen, List.drop_eq_getElem_cons (by omega),
    List.drop_eq_getElem_cons (by omega)]
  rfl

/-- **The fields of an accepted status frame.** -/
theorem readOff_of_parseStatus {frame : Frame} {baud : UInt32} {info : TargetInfo}
    (h : parseStatus frame baud = .ok info) : ReadOff frame info := by
  rw [parseStatus] at h
  split_ifs at h with hkind
  push Not at hkind
  dsimp only at h
  split at h
  · cases h
  · rename_i hshort
    have hlen : 52 ≤ frame.payload.length := Nat.le_of_not_lt hshort
    split_ifs at h
    cases h
    exact
      { dir := hkind.2
        cmd := hkind.1
        payload_length := hlen
        chipId := ⟨_, _, List.getElem?_eq_getElem (Nat.lt_of_lt_of_le (by decide) hlen),
          List.getElem?_eq_getElem (Nat.lt_of_lt_of_le (by decide) hlen), extract_chipId hlen⟩
        optionBytes := ⟨_, List.getElem?_eq_getElem (Nat.lt_of_lt_of_le (by decide) hlen), rfl⟩
        codeFlash := rfl }

/-- A known capacity is one of the table. -/
theorem ReadOff.capacity {frame : Frame} {info : TargetInfo} (h : ReadOff frame info) {cap : ℕ}
    (hcap : info.codeFlash = some cap) : ∃ k ∈ knownChips, k.1 = info.chipId ∧ k.2.2.1 = cap := by
  rw [h.codeFlash, Option.map_eq_some_iff] at hcap
  obtain ⟨k, hfind, rfl⟩ := hcap
  exact ⟨k, List.mem_of_find?_eq_some hfind, by simpa using List.find?_some hfind, rfl⟩

/-! ### The steps of a plan -/

/-- The step pushed for the `0x8F` probe. -/
def baudProbeStep (reload : UInt8) (opts : SessionOptions) : Step :=
  { phase := .baudProbe
    label := "baud probe -> " ++ toString opts.transferBaud ++ " baud"
    frame := baudProbeFrame reload
    expect := .echo
    timeoutMs := opts.replyTimeoutMs
    -- already at the handshake baud
    retuneBeforeSend := none
    retuneAfterSend := some opts.transferBaud
    writeAddr := none }

/-- The step pushed for the `0x8E` commit. -/
def baudCommitStep (reload : UInt8) (opts : SessionOptions) : Step :=
  { phase := .baudCommit
    label := "baud commit -> " ++ toString opts.transferBaud ++ " baud"
    frame := baudCommitFrame reload
    expect := .echo
    timeoutMs := opts.replyTimeoutMs
    -- drop back to send
    retuneBeforeSend := some opts.handshakeBaud
    retuneAfterSend := some opts.transferBaud
    writeAddr := none }

/-- The step pushed for the `i`-th link test. -/
def linkTestStep (info : TargetInfo) (opts : SessionOptions) (i : ℕ) : Step :=
  { phase := .linkTest
    label := "link test " ++ toString (i + 1) ++ "/" ++ toString linkTestRepeats
    frame := linkTestFrame info.chipId
    expect := .ack replyAck linkTestAckPayload
    timeoutMs := opts.replyTimeoutMs
    retuneBeforeSend := none
    retuneAfterSend := none
    writeAddr := none }

/-- The step pushed for the erase command. -/
def eraseStep (blocks : ℕ) (opts : SessionOptions) : Step :=
  { phase := .erase
    label := "erase " ++ toString blocks ++ " blocks (" ++ toString (blocks * eraseBlock)
      ++ " bytes)"
    frame := eraseFrame (UInt8.ofNat blocks)
    expect := .ackLen replyAck eraseReplyLen
    timeoutMs := opts.eraseTimeoutMs
    retuneBeforeSend := none
    retuneAfterSend := none
    writeAddr := none }

/-- The step pushed for the `i`-th block. -/
def writeStep (opts : SessionOptions) (totalBlocks i : ℕ) (chunk : Bytes) : Step :=
  let addr := UInt32.ofNat (i * writeBlock)
  { phase := .write
    label := "write block " ++ toString (i + 1) ++ "/" ++ toString totalBlocks ++ " at 0x"
      ++ hex04 addr.toNat
    frame := writeFrame addr chunk
    expect := .blockAck (blockAck chunk)
    timeoutMs := opts.replyTimeoutMs
    retuneBeforeSend := none
    retuneAfterSend := none
    writeAddr := some addr }

/-- The step pushed for the options. -/
def optionsStep (info : TargetInfo) (opts : SessionOptions) : Step :=
  { phase := .options
    label := "options (echoing the byte we read)"
    frame := optionsFrame info
    expect := .echo
    timeoutMs := opts.replyTimeoutMs
    retuneBeforeSend := none
    retuneAfterSend := none
    writeAddr := none }

/-- `run_step`. -/
def runStep (opts : SessionOptions) : Step :=
  { phase := .run
    label := "run application"
    frame := runFrame
    expect := .nothing
    timeoutMs := opts.replyTimeoutMs
    retuneBeforeSend := none
    retuneAfterSend := none
    writeAddr := none }

/-- The number of blocks to erase, for a job that erases. -/
def eraseBlocks (info : TargetInfo) : (job : Job) → job ≠ .identify → Except ProtocolError ℕ
  | .identify, h => absurd rfl h
  | .erase (some n), _ => .ok n.toNat
  | .erase none, _ =>
      match info.codeFlash with
      | none => .error (.unknownChipSize info.chipId)
      | some cap => .ok (cap / eraseBlock)
  | .flash image _, _ =>
      if image.isEmpty then .error .emptyImage
      else
        match info.codeFlash with
        | some cap =>
            if image.length > cap then .error (.imageTooLarge image.length cap)
            else .ok (eraseBlocksFor image.length)
        | none => .ok (eraseBlocksFor image.length)

/-- The image, filled up with `0xFF` to the end of the erased region. -/
def padded (image : Bytes) (blocks : ℕ) : Bytes := resize image (blocks * eraseBlock) 0xFF

/-- The steps that write an image over the erased region. -/
def writeSteps (image : Bytes) (blocks : ℕ) (opts : SessionOptions) : List Step :=
  let region := blocks * eraseBlock
  let totalBlocks := region / writeBlock
  (chunks writeBlock (padded image blocks)).mapIdx (writeStep opts totalBlocks)

/-- The steps between the erase and the run command. -/
def programSteps (info : TargetInfo) (blocks : ℕ) (opts : SessionOptions) : Job → List Step
  | .flash image writeOptions =>
      writeSteps image blocks opts ++ if writeOptions then [optionsStep info opts] else []
  | _ => []

/-- `plan`: the entire session, up front. -/
def plan (info : TargetInfo) (job : Job) (opts : SessionOptions) :
    Except ProtocolError (List Step) :=
  -- an info-only session never switches baud
  if h : job = .identify then .ok [runStep opts]
  else do
    let reload ← timerReload info.measuredHz opts.transferBaud
    let steps := [baudProbeStep reload opts, baudCommitStep reload opts]
    let steps := steps ++ (List.range linkTestRepeats).map (linkTestStep info opts)
    let blocks ← eraseBlocks info job h
    if blocks = 0 ∨ blocks > 0xFF then throw (.eraseTooLarge blocks)
    let steps := steps ++ [eraseStep blocks opts]
    let steps := steps ++ programSteps info blocks opts job
    return steps ++ [runStep opts]

/-! ### The blocks of a padded image -/

/-- A list of whole pieces falls into exactly these. -/
theorem chunks_eq {α : Type} {n m : ℕ} {l : List α} (hn : 0 < n) (h : l.length = m * n) :
    chunks n l = (List.range m).map fun i => (l.drop (i * n)).take n := by
  have hdiv : (l.length + n - 1) / n = m := by
    rw [h, show m * n + n - 1 = n - 1 + n * m by rw [Nat.mul_comm]; omega,
      Nat.add_mul_div_left _ _ hn, Nat.div_eq_of_lt (by omega), Nat.zero_add]
  rw [chunks, hdiv]

/-- The erased region is large enough for the image. -/
theorem length_le_region (n : ℕ) : n ≤ eraseBlocksFor n * eraseBlock := by
  simp only [eraseBlocksFor, eraseGranule, eraseBlock]
  omega

/-- The padded image fills the erased region. -/
theorem length_padded (image : Bytes) (blocks : ℕ) :
    (padded image blocks).length = blocks * eraseBlock := by
  simp only [padded, resize, List.length_append, List.length_take, List.length_replicate]
  omega

/-- The padded image is the image, and `0xFF` up to the end of the erased region. -/
theorem padded_eq {image : Bytes} {blocks : ℕ} (h : image.length ≤ blocks * eraseBlock) :
    padded image blocks =
      image ++ List.replicate (blocks * eraseBlock - image.length) 0xFF := by
  rw [padded, resize, List.take_of_length_le h]

/-- The `i`-th block of the padded image. -/
def block (image : Bytes) (blocks i : ℕ) : Bytes :=
  ((padded image blocks).drop (i * writeBlock)).take writeBlock

/-- Each block of the padded image is a whole one. -/
theorem length_block {image : Bytes} {blocks i : ℕ} (h : i < 2 * blocks) :
    (block image blocks i).length = writeBlock := by
  rw [block, List.length_take, List.length_drop, length_padded]
  simp only [writeBlock, eraseBlock]
  omega

/-- **The write steps, block by block.** -/
theorem writeSteps_eq (image : Bytes) (blocks : ℕ) (opts : SessionOptions) :
    writeSteps image blocks opts =
      (List.range (2 * blocks)).map fun i =>
        writeStep opts (2 * blocks) i (block image blocks i) := by
  have htotal : blocks * eraseBlock / writeBlock = 2 * blocks := by
    simp only [eraseBlock, writeBlock]
    omega
  have hlen : (padded image blocks).length = 2 * blocks * writeBlock := by
    rw [length_padded]
    simp only [eraseBlock, writeBlock]
    omega
  rw [writeSteps, htotal, chunks_eq (by decide) hlen]
  apply List.ext_getElem <;> simp [block]

/-! ### The shape of a plan -/

/-- **When planning succeeds, and what it plans**, for a job that does any work: the reload
exists, the block count fits one byte and is not zero. -/
theorem plan_eq_ok_iff {info : TargetInfo} {job : Job} {opts : SessionOptions}
    {steps : List Step} (h : job ≠ .identify) :
    plan info job opts = .ok steps ↔
      ∃ reload blocks, timerReload info.measuredHz opts.transferBaud = .ok reload ∧
        eraseBlocks info job h = .ok blocks ∧ 0 < blocks ∧ blocks ≤ 0xFF ∧
        steps = baudProbeStep reload opts :: baudCommitStep reload opts ::
          ((List.range linkTestRepeats).map (linkTestStep info opts) ++
            eraseStep blocks opts :: (programSteps info blocks opts job ++ [runStep opts])) := by
  rw [plan, dif_neg h]
  cases hr : timerReload info.measuredHz opts.transferBaud with
  | error e => simp [bind, Except.bind]
  | ok reload =>
      cases hb : eraseBlocks info job h with
      | error e => simp [bind, Except.bind]
      | ok blocks =>
          by_cases hz : blocks = 0 ∨ blocks > 0xFF
          · simp only [bind, Except.bind, if_pos hz, throw, throwThe, MonadExceptOf.throw,
              reduceCtorEq, false_iff]
            rintro ⟨_, _, -, hb', h0, h1, -⟩
            cases hb'
            omega
          · simp only [bind, Except.bind, if_neg hz, pure, Except.pure, Except.ok.injEq]
            constructor
            · rintro rfl
              exact ⟨reload, blocks, rfl, rfl, by omega, by omega, by simp⟩
            · rintro ⟨_, _, rfl, rfl, -, -, rfl⟩
              simp

/-- **When an image fits**, and the blocks erased for it. -/
theorem eraseBlocks_flash_iff {info : TargetInfo} {image : Bytes} {writeOptions : Bool}
    {h : Job.flash image writeOptions ≠ .identify} {blocks : ℕ} :
    eraseBlocks info (.flash image writeOptions) h = .ok blocks ↔
      image ≠ [] ∧ (∀ cap, info.codeFlash = some cap → image.length ≤ cap) ∧
        blocks = eraseBlocksFor image.length := by
  rw [eraseBlocks]
  by_cases hne : image = []
  · simp [hne]
  · rw [if_neg (by simpa using hne)]
    cases info.codeFlash with
    | none => simp [hne, eq_comm]
    | some cap =>
        by_cases hlen : image.length > cap
        · simp [hlen, Nat.not_le.mpr hlen]
        · simp [hlen, hne, eq_comm, Nat.le_of_not_lt hlen]

/-- The steps of a flash plan. -/
theorem plan_flash {info : TargetInfo} {image : Bytes} {writeOptions : Bool}
    {opts : SessionOptions} {steps : List Step}
    (h : plan info (.flash image writeOptions) opts = .ok steps) :
    ∃ reload, image ≠ [] ∧ eraseBlocksFor image.length ≤ 0xFF ∧
      steps = baudProbeStep reload opts :: baudCommitStep reload opts ::
        ((List.range linkTestRepeats).map (linkTestStep info opts) ++
          eraseStep (eraseBlocksFor image.length) opts ::
            (programSteps info (eraseBlocksFor image.length) opts (.flash image writeOptions) ++
              [runStep opts])) := by
  obtain ⟨reload, blocks, -, hb, -, hle, rfl⟩ := (plan_eq_ok_iff (by simp)).mp h
  obtain ⟨hne, -, rfl⟩ := eraseBlocks_flash_iff.mp hb
  exact ⟨reload, hne, hle, rfl⟩

/-- The steps a planner may plan for a job. -/
inductive StepOf (info : TargetInfo) (job : Job) (opts : SessionOptions) : Step → Prop
  | probe (hjob : job ≠ .identify) (reload : UInt8) :
      StepOf info job opts (baudProbeStep reload opts)
  | commit (hjob : job ≠ .identify) (reload : UInt8) :
      StepOf info job opts (baudCommitStep reload opts)
  | linkTest (hjob : job ≠ .identify) (i : ℕ) : StepOf info job opts (linkTestStep info opts i)
  | erase (hjob : job ≠ .identify) {blocks : ℕ} (hb : eraseBlocks info job hjob = .ok blocks)
      (hpos : 0 < blocks) (hle : blocks ≤ 0xFF) : StepOf info job opts (eraseStep blocks opts)
  | write {image : Bytes} {writeOptions : Bool} (hjob : job = .flash image writeOptions)
      (hle : eraseBlocksFor image.length ≤ 0xFF) {i : ℕ}
      (hi : i < 2 * eraseBlocksFor image.length) :
      StepOf info job opts (writeStep opts (2 * eraseBlocksFor image.length) i
        (block image (eraseBlocksFor image.length) i))
  | options {image : Bytes} (hjob : job = .flash image true) :
      StepOf info job opts (optionsStep info opts)
  | run : StepOf info job opts (runStep opts)

/-- **What a plan consists of.** -/
theorem stepOf_of_plan {info : TargetInfo} {job : Job} {opts : SessionOptions}
    {steps : List Step} (h : plan info job opts = .ok steps) :
    ∀ step ∈ steps, StepOf info job opts step := by
  intro step hs
  by_cases hjob : job = .identify
  · subst hjob
    cases h
    obtain rfl := List.mem_singleton.mp hs
    exact .run
  obtain ⟨reload, blocks, -, hb, hpos, hle, rfl⟩ := (plan_eq_ok_iff hjob).mp h
  simp only [List.mem_cons, List.mem_append, List.mem_map, List.not_mem_nil, or_false] at hs
  rcases hs with rfl | rfl | ⟨i, -, rfl⟩ | rfl | hs | rfl
  · exact .probe hjob reload
  · exact .commit hjob reload
  · exact .linkTest hjob i
  · exact .erase hjob hb hpos hle
  · match job, hs with
    | .flash image writeOptions, hs =>
        obtain ⟨-, -, rfl⟩ := eraseBlocks_flash_iff.mp hb
        rw [programSteps, writeSteps_eq, List.mem_append] at hs
        rcases hs with hs | hs
        · obtain ⟨i, hi, rfl⟩ := List.mem_map.mp hs
          exact .write rfl hle (List.mem_range.mp hi)
        · cases writeOptions with
          | false => cases hs
          | true =>
              obtain rfl := List.mem_singleton.mp hs
              exact .options rfl
  · exact .run

end Stc89

/-! ### Phases -/

/-- The command byte of the frames sent in a phase. -/
def Phase.command : Phase → UInt8
  | sync => cmdStatus
  | status => cmdStatus
  | baudProbe => cmdBaudProbe
  | baudCommit => cmdBaudCommit
  | linkTest => cmdLinkTest
  | erase => cmdErase
  | write => cmdWrite
  | options => cmdOptions
  | run => cmdRun

/-- Only the baud negotiation sends the two baud commands. -/
theorem Phase.command_eq_baud_iff {p : Phase} :
    p.command = cmdBaudProbe ∨ p.command = cmdBaudCommit ↔ p = .baudProbe ∨ p = .baudCommit := by
  cases p <;> decide

/-- The place of a phase in the protocol. -/
def Phase.rank : Phase → ℕ
  | sync => 0
  | status => 1
  | baudProbe => 2
  | baudCommit => 3
  | linkTest => 4
  | erase => 5
  | write => 6
  | options => 7
  | run => 8

/-- Everything that comes before the run step of a job. -/
def Job.phasesBeforeRun : Job → List Phase
  | identify => []
  | erase _ => [.baudProbe, .baudCommit] ++ List.replicate 4 .linkTest ++ [.erase]
  | flash image writeOptions =>
      [.baudProbe, .baudCommit] ++ List.replicate 4 .linkTest ++ [.erase] ++
        List.replicate (2 * Stc89.eraseBlocksFor image.length) .write ++
          if writeOptions then [.options] else []

/-- **The protocol order of a job**: baud probe, baud commit, four link tests, erase, one
write for each 128 bytes erased, options where wanted, run. -/
def Job.phases (job : Job) : List Phase := job.phasesBeforeRun ++ [.run]

/-- No phase comes before one of lower rank. -/
theorem Job.pairwise_phases (job : Job) :
    job.phases.Pairwise fun p q => p.rank ≤ q.rank := by
  match job with
  | identify => decide
  | erase _ =>
      show List.Pairwise _ [Phase.baudProbe, .baudCommit, .linkTest, .linkTest, .linkTest,
        .linkTest, .erase, .run]
      decide
  | flash image writeOptions =>
      rw [phases, phasesBeforeRun, List.append_assoc, List.append_assoc]
      have hfront : ∀ p ∈ [Phase.baudProbe, .baudCommit] ++ List.replicate 4 .linkTest ++ [.erase],
          p.rank ≤ Phase.write.rank := by decide
      have htail : ∀ q ∈ (if writeOptions then [Phase.options] else []) ++ [.run],
          Phase.write.rank ≤ q.rank := by cases writeOptions <;> decide
      refine List.pairwise_append.mpr ⟨by decide, List.pairwise_append.mpr
        ⟨List.pairwise_replicate.mpr (.inr (Nat.le_refl _)),
          by cases writeOptions <;> decide, ?_⟩, ?_⟩
      · intro p hp q hq
        rw [List.eq_of_mem_replicate hp]
        exact htail q hq
      · intro p hp q hq
        rcases List.mem_append.mp hq with hq | hq
        · rw [List.eq_of_mem_replicate hq]
          exact hfront p hp
        · exact Nat.le_trans (hfront p hp) (htail q hq)

/-- The run is no phase before the run. -/
theorem Job.run_notMem_phasesBeforeRun (job : Job) : Phase.run ∉ job.phasesBeforeRun := by
  cases job with
  | identify => simp [Job.phasesBeforeRun]
  | erase _ => simp [Job.phasesBeforeRun]
  | flash image writeOptions => cases writeOptions <;> simp [Job.phasesBeforeRun]

/-- The run phase stands at the end, and nowhere else. -/
theorem Job.phases_eq_run_iff (job : Job) {j : ℕ} :
    job.phases[j]? = some .run ↔ j + 1 = job.phases.length := by
  have hrun := job.run_notMem_phasesBeforeRun
  simp only [Job.phases, List.length_append, List.length_singleton]
  rw [List.getElem?_append]
  split
  · constructor
    · intro h
      exact absurd (List.mem_of_getElem? h) hrun
    · omega
  · rw [List.getElem?_singleton]
    split <;> simp <;> omega

namespace Stc89

/-- **The phases of a plan.** -/
theorem phases_of_plan {info : TargetInfo} {job : Job} {opts : SessionOptions}
    {steps : List Step} (h : plan info job opts = .ok steps) :
    steps.map Step.phase = job.phases := by
  have hlinks : ((List.range linkTestRepeats).map (linkTestStep info opts)).map Step.phase =
      List.replicate 4 .linkTest := rfl
  match job with
  | .identify =>
      cases h
      rfl
  | .erase b =>
      obtain ⟨reload, blocks, -, -, -, -, rfl⟩ := (plan_eq_ok_iff (by simp)).mp h
      simp only [List.map_cons, List.map_append, hlinks]
      rfl
  | .flash image writeOptions =>
      obtain ⟨reload, -, -, rfl⟩ := plan_flash h
      have hwrites : (writeSteps image (eraseBlocksFor image.length) opts).map Step.phase =
          List.replicate (2 * eraseBlocksFor image.length) .write := by
        rw [writeSteps_eq, List.map_map]
        exact List.eq_replicate_iff.mpr ⟨by simp, by simp [writeStep]⟩
      simp only [List.map_cons, List.map_append, hlinks, programSteps, hwrites]
      cases writeOptions <;> simp [Job.phases, Job.phasesBeforeRun, baudProbeStep,
        baudCommitStep, eraseStep, optionsStep, runStep]

/-- What every planned step is like: it sends the command of its phase, and expects a reply
unless it is the run step. -/
structure Planned (step : Step) : Prop where
  dir : step.frame.dir = .hostToMcu
  cmd : step.frame.cmd = step.phase.command
  expectReply : step.expectReply = true ↔ step.phase ≠ .run

/-- The steps behind the baud negotiation leave the rate alone. -/
structure BehindNegotiation (step : Step) : Prop where
  before : step.retuneBeforeSend = none
  after : step.retuneAfterSend = none
  notProbe : step.phase ≠ .baudProbe
  notCommit : step.phase ≠ .baudCommit

/-- The steps that program a job are planned ones, behind the negotiation. -/
theorem planned_programSteps {info : TargetInfo} {blocks : ℕ} {opts : SessionOptions}
    {job : Job} {step : Step} (h : step ∈ programSteps info blocks opts job) :
    Planned step ∧ BehindNegotiation step := by
  match job, h with
  | .flash image writeOptions, h =>
      rw [programSteps, writeSteps_eq, List.mem_append] at h
      rcases h with h | h
      · obtain ⟨i, -, rfl⟩ := List.mem_map.mp h
        exact ⟨⟨rfl, rfl, by simp [writeStep, Step.expectReply]⟩, rfl, rfl,
          by simp [writeStep], by simp [writeStep]⟩
      · cases writeOptions with
        | false => cases h
        | true =>
            obtain rfl := List.mem_singleton.mp h
            exact ⟨⟨rfl, rfl, by simp [optionsStep, Step.expectReply]⟩, rfl, rfl,
              by simp [optionsStep], by simp [optionsStep]⟩

/-- The steps of a plan: the negotiation, and what stands behind it. -/
theorem negotiation_of_plan {info : TargetInfo} {job : Job} {opts : SessionOptions}
    {steps : List Step} (hjob : job ≠ .identify) (h : plan info job opts = .ok steps) :
    ∃ reload rest, steps = baudProbeStep reload opts :: baudCommitStep reload opts :: rest ∧
      ∀ step ∈ rest, Planned step ∧ BehindNegotiation step := by
  obtain ⟨reload, blocks, -, -, -, -, rfl⟩ := (plan_eq_ok_iff hjob).mp h
  refine ⟨reload, _, rfl, ?_⟩
  intro step hs
  simp only [List.mem_append, List.mem_map, List.mem_cons, List.not_mem_nil, or_false] at hs
  rcases hs with ⟨i, -, rfl⟩ | rfl | hs | rfl
  · exact ⟨⟨rfl, rfl, by simp [linkTestStep, Step.expectReply]⟩, rfl, rfl,
      by simp [linkTestStep], by simp [linkTestStep]⟩
  · exact ⟨⟨rfl, rfl, by simp [eraseStep, Step.expectReply]⟩, rfl, rfl,
      by simp [eraseStep], by simp [eraseStep]⟩
  · exact planned_programSteps hs
  · exact ⟨⟨rfl, rfl, by simp [runStep, Step.expectReply]⟩, rfl, rfl,
      by simp [runStep], by simp [runStep]⟩

/-- **Where the baud rate changes**: the probe is followed by a switch up, the commit preceded
by a switch down and followed by a switch up, and no later step changes the rate. -/
inductive Switches (opts : SessionOptions) : ℕ → Step → Prop
  | probe (reload : UInt8) : Switches opts 0 (baudProbeStep reload opts)
  | commit (reload : UInt8) : Switches opts 1 (baudCommitStep reload opts)
  | later {k : ℕ} {step : Step} (h : BehindNegotiation step) : Switches opts (k + 2) step

/-- The step at each position of a plan. -/
theorem switches_of_plan {info : TargetInfo} {job : Job} {opts : SessionOptions}
    {steps : List Step} (hjob : job ≠ .identify) (h : plan info job opts = .ok steps)
    {k : ℕ} {step : Step} (hk : steps[k]? = some step) : Switches opts k step := by
  obtain ⟨reload, rest, rfl, hrest⟩ := negotiation_of_plan hjob h
  match k with
  | 0 =>
      cases hk
      exact .probe reload
  | 1 =>
      cases hk
      exact .commit reload
  | k + 2 => exact .later (hrest step (List.mem_of_getElem? hk)).2

/-- **Every step of a plan** sends the command of its phase, and the run step alone expects
no reply. -/
theorem planned_of_mem {info : TargetInfo} {job : Job} {opts : SessionOptions}
    {steps : List Step} (h : plan info job opts = .ok steps) :
    ∀ step ∈ steps, Planned step := by
  by_cases hjob : job = .identify
  · subst hjob
    cases h
    intro step hs
    obtain rfl := List.mem_singleton.mp hs
    exact ⟨rfl, rfl, by simp [runStep, Step.expectReply]⟩
  · obtain ⟨reload, rest, rfl, hrest⟩ := negotiation_of_plan hjob h
    intro step hs
    rcases List.mem_cons.mp hs with rfl | hs
    · exact ⟨rfl, rfl, by simp [baudProbeStep, Step.expectReply]⟩
    rcases List.mem_cons.mp hs with rfl | hs
    · exact ⟨rfl, rfl, by simp [baudCommitStep, Step.expectReply]⟩
    · exact (hrest step hs).1

/-! ### A captured target -/

/-- The status frame of a bench capture. -/
def benchStatus : Frame :=
  .mcu cmdStatus
    [0x0A, 0x79, 0x0A, 0x79, 0x0A, 0x79, 0x0A, 0x79, 0x0A, 0x79, 0x0A, 0x79, 0x0A, 0x79, 0x0A,
      0x79, 0x66, 0x43, 0xFD, 0xF0, 0x02, 0x82, 0xEF, 0xF6, 0xAE, 0xF3, 0xEE, 0xF1, 0xCA, 0xCC,
      0x72, 0x1B, 0xF3, 0xDF, 0xFE, 0x8C, 0xED, 0xF6, 0xEE, 0xE7, 0xEE, 0xFB, 0x6A, 0xC8, 0x9D,
      0x57, 0xDF, 0x7F, 0xDE, 0xFD, 0xEE, 0x04]

/-- What `parse_status` makes of it. -/
def benchTarget : TargetInfo :=
  { family := "stc89"
    chipId := [0xF0, 0x02]
    model := some "STC89C52RC/LE52RC"
    codeFlash := some 8192
    eepromFlash := some 6144
    bslVersion := "6.6C"
    measuredHz := 11030400
    freqWords := List.replicate 8 0x0A79
    optionBytes := [0xFD]
    rawStatus := benchStatus.payload }

/-- The captured status packet is the captured target. -/
theorem parseStatus_benchStatus : parseStatus benchStatus 2400 = .ok benchTarget := by
  decide +kernel

/-- The steps of its erase session, for two blocks. -/
def benchErase : List Step :=
  baudProbeStep 0xFD .default :: baudCommitStep 0xFD .default ::
    ((List.range linkTestRepeats).map (linkTestStep benchTarget .default) ++
      [eraseStep 2 .default, runStep .default])

/-- The plan of an erase on the captured target, step by step. -/
theorem plan_benchErase : plan benchTarget (.erase (some 2)) .default = .ok benchErase := by
  decide +kernel

end Stc89

end Stcbsl
