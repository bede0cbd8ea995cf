import Stcbsl.BlockIntegrity

/-!
# The Offline Explanation of an Image

The command `explain` prints what a flash session would program where, and the ack of every
block, without a port and without a chip. It works all of this out again, in a loop of its own
and with unbounded addresses, where the planner keeps addresses in 32 bits and the block count in
a byte.

## The lines and what they show

A printed line is a value here (`ExplainLine`), and `ExplainLine.text` is its text. What a line
shows is read off the value: the block count of the erase, the number of writes, and the address
and the ack of a block. The statements are about the values, so that they speak of numbers and
not of how these are formatted.

The two computations agree wherever there is a plan. Where planning fails there is nothing to
agree with, and `explain` prints its lines all the same.

## Main results

* `cmdExplain_eq` — what is printed, block by block.
* `erases_of_plan`, `writes_of_plan` — the erase step and the write steps of a flash plan.
* `explain_agrees` — what is printed for an image is what its plan does.
-/

namespace Stcbsl

open Stc89

/-! ### The command -/

/-- A line printed by `cmd_explain`, with the values it shows. -/
inductive ExplainLine
  | erase (blocks region : ℕ)
  | write (blocks : ℕ)
  | block (addr : ℕ) (ack : UInt8) (allFF : Bool)
  | blank
  | note
  deriving DecidableEq, Repr

namespace ExplainLine

/-- The text of the line. -/
def text : ExplainLine → String
  | erase blocks region =>
      "erase: " ++ toString blocks ++ " blocks x " ++ toString eraseBlock ++ " B = "
        ++ toString region ++ " B  (rule: NN = 2 x ceil(size/512))"
  | write blocks => "write: " ++ toString blocks ++ " blocks x " ++ toString writeBlock ++ " B"
  | block addr ack allFF =>
      "  0x" ++ hex04 addr ++ "  ack 0x" ++ hex02 ack ++ if allFF then "   (padding)" else ""
  | blank => ""
  | note =>
      "The baud, link-test and option frames depend on the live status packet\n"
        ++ "(measured frequency, chip id, current option byte), so they are not shown\n"
        ++ "here: this tool never invents an option byte."

/-- The block count of an erase line. -/
def eraseCount : ExplainLine → Option ℕ
  | erase blocks _ => some blocks
  | _ => none

/-- The block count of a write line. -/
def writeCount : ExplainLine → Option ℕ
  | write blocks => some blocks
  | _ => none

/-- The address and the ack of a block line. -/
def addrAck : ExplainLine → Option (ℕ × UInt8)
  | block addr ack _ => some (addr, ack)
  | _ => none

end ExplainLine

/-- `cmd_explain`, once the image is loaded. -/
def cmdExplain (image : Bytes) : List ExplainLine :=
  let blocks := eraseBlocksFor image.length
  let region := blocks * eraseBlock
  let padded := resize image region 0xFF
  [.erase blocks region, .write (region / writeBlock)] ++
    (chunks writeBlock padded).mapIdx (fun i chunk =>
      let addr := i * writeBlock
      let allFF := chunk.all fun b => b == 0xFF
      .block addr (blockAck chunk) allFF) ++
    [.blank, .note]

/-- **What is printed, block by block**: as many blocks as there are write steps, and the same. -/
theorem cmdExplain_eq (image : Bytes) :
    cmdExplain image =
      [.erase (eraseBlocksFor image.length) (eraseBlocksFor image.length * eraseBlock),
        .write (2 * eraseBlocksFor image.length)] ++
      ((List.range (2 * eraseBlocksFor image.length)).map fun i =>
        .block (i * writeBlock) (blockAck (block image (eraseBlocksFor image.length) i))
          ((block image (eraseBlocksFor image.length) i).all fun b => b == 0xFF)) ++
      [.blank, .note] := by
  have htotal : eraseBlocksFor image.length * eraseBlock / writeBlock =
      2 * eraseBlocksFor image.length := by
    simp only [eraseBlock, writeBlock]
    omega
  have hlen : (padded image (eraseBlocksFor image.length)).length =
      2 * eraseBlocksFor image.length * writeBlock := by
    rw [length_padded]
    simp only [eraseBlock, writeBlock]
    omega
  have hchunks := chunks_eq (by decide : 0 < writeBlock) hlen
  rw [padded] at hchunks
  rw [cmdExplain, htotal, hchunks]
  congr 2
  apply List.ext_getElem <;> simp [block, padded]

/-- A reading that passes over the block lines. -/
theorem filterMap_blocks {β : Type} {g : ExplainLine → Option β} {f : ℕ → ExplainLine}
    (h : ∀ i, g (f i) = none) (n : ℕ) : ((List.range n).map f).filterMap g = [] := by
  rw [List.filterMap_map, List.filterMap_eq_nil_iff]
  exact fun i _ => h i

/-- The one block count that is printed. -/
theorem eraseCount_cmdExplain (image : Bytes) :
    (cmdExplain image).filterMap ExplainLine.eraseCount = [eraseBlocksFor image.length] := by
  rw [cmdExplain_eq, List.filterMap_append, List.filterMap_append, filterMap_blocks fun _ => rfl]
  rfl

/-- The one number of writes that is printed. -/
theorem writeCount_cmdExplain (image : Bytes) :
    (cmdExplain image).filterMap ExplainLine.writeCount = [2 * eraseBlocksFor image.length] := by
  rw [cmdExplain_eq, List.filterMap_append, List.filterMap_append, filterMap_blocks fun _ => rfl]
  rfl

/-- The addresses and sums that are printed, block after block. -/
theorem addrAck_cmdExplain (image : Bytes) :
    (cmdExplain image).filterMap ExplainLine.addrAck =
      (List.range (2 * eraseBlocksFor image.length)).map fun i =>
        (i * writeBlock, blockAck (block image (eraseBlocksFor image.length) i)) := by
  rw [cmdExplain_eq, List.filterMap_append, List.filterMap_append, List.filterMap_map,
    ← List.filterMap_eq_map]
  exact List.append_nil _

/-! ### The steps of a flash plan -/

section Plan

variable {info : TargetInfo} {image : Bytes} {writeOptions : Bool} {opts : SessionOptions}
  {steps : List Step}

/-- Only the erase step and the write steps of a flash plan pass a filter that no step of another
phase passes. -/
theorem filter_of_plan (h : plan info (.flash image writeOptions) opts = .ok steps)
    {p : Step → Bool}
    (hp : ∀ step, step.phase ≠ .erase → step.phase ≠ .write → p step = false) :
    steps.filter p = [eraseStep (eraseBlocksFor image.length) opts].filter p ++
      (writeSteps image (eraseBlocksFor image.length) opts).filter p := by
  obtain ⟨reload, -, -, rfl⟩ := plan_flash h
  have hnot : ∀ {step : Step}, step.phase ≠ .erase → step.phase ≠ .write → ¬ p step = true := by
    intro step herase hwrite
    rw [hp step herase hwrite]
    exact Bool.false_ne_true
  have hlinks : ((List.range linkTestRepeats).map (linkTestStep info opts)).filter p = [] := by
    rw [List.filter_eq_nil_iff]
    intro step hs
    obtain ⟨i, -, rfl⟩ := List.mem_map.mp hs
    exact hnot nofun nofun
  have hoptions : (if writeOptions then [optionsStep info opts] else []).filter p = [] := by
    cases writeOptions with
    | false => rfl
    | true => exact List.filter_cons_of_neg (hnot nofun nofun)
  have hrun : [runStep opts].filter p = [] := List.filter_cons_of_neg (hnot nofun nofun)
  have hprobe : ¬ p (baudProbeStep reload opts) = true := hnot nofun nofun
  have hcommit : ¬ p (baudCommitStep reload opts) = true := hnot nofun nofun
  rw [List.filter_cons_of_neg hprobe, List.filter_cons_of_neg hcommit, List.filter_append, hlinks,
    List.nil_append, ← List.singleton_append, List.filter_append, programSteps,
    List.filter_append, List.filter_append, hoptions, hrun, List.append_nil, List.append_nil]

/-- Write steps are in the write phase. -/
theorem phase_of_mem_writeSteps {blocks : ℕ} {step : Step}
    (h : step ∈ writeSteps image blocks opts) : step.phase = .write := by
  rw [writeSteps_eq] at h
  obtain ⟨i, -, rfl⟩ := List.mem_map.mp h
  rfl

/-- **A flash plan has one erase step.** -/
theorem erases_of_plan (h : plan info (.flash image writeOptions) opts = .ok steps) :
    (steps.filter fun step => step.phase == .erase) =
      [eraseStep (eraseBlocksFor image.length) opts] := by
  have hwrites : (writeSteps image (eraseBlocksFor image.length) opts).filter
      (fun step => step.phase == .erase) = [] := by
    rw [List.filter_eq_nil_iff]
    intro step hs
    rw [phase_of_mem_writeSteps hs]
    exact Bool.false_ne_true
  rw [filter_of_plan h (by simp_all), hwrites]
  rfl

/-- **The write steps of a flash plan** are those of the padded image. -/
theorem writes_of_plan (h : plan info (.flash image writeOptions) opts = .ok steps) :
    steps.filter Step.isWrite = writeSteps image (eraseBlocksFor image.length) opts := by
  have hwrites : (writeSteps image (eraseBlocksFor image.length) opts).filter Step.isWrite =
      writeSteps image (eraseBlocksFor image.length) opts := by
    rw [List.filter_eq_self]
    intro step hs
    rw [Step.isWrite, phase_of_mem_writeSteps hs]
    rfl
  rw [filter_of_plan h (by simp_all [Step.isWrite]), hwrites]
  rfl

end Plan

/-! ### The two agree -/

/-- **What is printed for an image is what its plan does**: the block count is the one in the only
erase frame, there are as many blocks as write steps, and the addresses and the acks are those of
the write steps, in this order. -/
theorem explain_agrees {info : TargetInfo} {image : Bytes} {writeOptions : Bool}
    {opts : SessionOptions} {steps : List Step}
    (h : plan info (.flash image writeOptions) opts = .ok steps) :
    (∃ nn : UInt8, ((steps.filter fun step => step.phase == .erase).map Step.frame) =
        [eraseFrame nn] ∧
      (cmdExplain image).filterMap ExplainLine.eraseCount = [nn.toNat]) ∧
    (cmdExplain image).filterMap ExplainLine.writeCount = [(steps.filter Step.isWrite).length] ∧
    ((cmdExplain image).filterMap ExplainLine.addrAck).map
        (fun l => (some l.1, Expect.blockAck l.2)) =
      (steps.filter Step.isWrite).map fun step =>
        (step.writeAddr.map UInt32.toNat, step.expect) := by
  obtain ⟨_, -, hle, -⟩ := plan_flash h
  rw [erases_of_plan h, writes_of_plan h, eraseCount_cmdExplain, writeCount_cmdExplain,
    addrAck_cmdExplain, writeSteps_eq]
  refine ⟨⟨UInt8.ofNat (eraseBlocksFor image.length), rfl, ?_⟩, ?_, ?_⟩
  · rw [UInt8.toNat_ofNat', Nat.mod_eq_of_lt (by omega)]
  · rw [List.length_map, List.length_range]
  · rw [List.map_map, List.map_map]
    apply List.map_congr_left
    intro i hi
    have hlt := List.mem_range.mp hi
    have haddr : (UInt32.ofNat (i * writeBlock)).toNat = i * writeBlock := by
      rw [UInt32.toNat_ofNat', Nat.mod_eq_of_lt]
      simp only [writeBlock]
      omega
    simp only [Function.comp_apply, writeStep, Option.map_some, haddr]

/-- `explain_agrees` for a three-byte image on the captured target. -/
theorem explain_agrees_bench :
    plan benchTarget (.flash [0x02, 0x00, 0x4C] false) .default = .ok benchFlash ∧
      ((cmdExplain [0x02, 0x00, 0x4C]).filterMap ExplainLine.addrAck).map
          (fun l => (some l.1, Expect.blockAck l.2)) =
        (benchFlash.filter Step.isWrite).map fun step =>
          (step.writeAddr.map UInt32.toNat, step.expect) :=
  ⟨plan_benchFlash, (explain_agrees plan_benchFlash).2.2⟩

end Stcbsl
