import Stcbsl.Conduct
import Stcbsl.Device

/-!
# Interrupted Sessions

What a session that breaks off leaves in the code flash of the device, wherever it breaks off:
the device receives what was written with success, and of a write that failed any part. The
erase comes first, and the blocks in ascending order, so the flash is untouched, or it holds the
image up to the end of some block and is erased from there to the end of the region.

## What arrives

A write with success arrives whole, and one that fails with any beginning of its string
(`Arrives`). A beginning of a request is the whole of it or no request: a frame states its
length, and what is shorter is not obeyed (`ignored_of_prefix`). Pulses are no requests either.
So a device has received the requests of a plan up to one that lies between those written with
success and those handed to the wire.

## What the result says

`Leaves` puts the states of the flash beside the results of the program. The report of an
indeterminate flash says that the region has been erased, and leaves open how many blocks are
written; any other error says that the flash is as it was, or the region erased with none or all
of its blocks written. The report stands in the text of the error, so a program that ends
without this text on the standard error leaves the flash in a definite state.

## Main results

* `flash_of_plan` — the flash behind any number of requests of a plan.
* `main_leaves` — the flash behind the program, and what its result says about the flash.
* `flash_of_exitCode` — the flash behind a program that does not warn its user.
-/

namespace Stcbsl

open Traced Session Stc89 Overwrite Driver

/-! ### What the device receives -/

/-- The device behind a sequence of byte strings. -/
def Device.receive (dev : Device) (recv : List Bytes) : Device :=
  recv.foldl (fun dev bytes => (dev.respond bytes).2) dev

/-- Strings received one after the other. -/
theorem Device.receive_append (dev : Device) (recv recv' : List Bytes) :
    dev.receive (recv ++ recv') = (dev.receive recv).receive recv' := List.foldl_append

/-- What arrives of an event: the bytes of a write with success, any part of those of a write
that fails, and nothing of all else. -/
def Arrives : Driver.Event → Bytes → Prop
  | .wire (.writeAll bytes) (.ok ()), p => p = bytes
  | .wire (.writeAll bytes) (.error _), p => p <+: bytes
  | _, p => p = []

/-- A string is ignored by every device. -/
def Ignored (bytes : Bytes) : Prop := ∀ dev : Device, (dev.respond bytes).2 = dev

/-- What is no frame is ignored. -/
theorem ignored_of_error {bytes : Bytes} (h : ∀ f, Frame.decode bytes ≠ .ok f) :
    Ignored bytes := by
  intro dev
  rw [Device.respond]
  cases hd : Frame.decode bytes with
  | error e => rfl
  | ok f => exact absurd hd (h f)

/-- Too short to be a frame. -/
theorem ignored_of_lt {bytes : Bytes} (h : bytes.length < 8) : Ignored bytes := by
  refine ignored_of_error fun f hf => ?_
  have := congrArg List.length (Frame.decode_eq_ok_iff.mp hf)
  rw [Frame.length_encode] at this
  have := f.frameOverhead_le_wireLen
  omega

/-- **A part of a request** is the whole of it, or is ignored: its length field tells. -/
theorem ignored_of_prefix {p : Bytes} {f : Frame} (hlen : f.wireLen ≤ 65537)
    (hp : p <+: f.encode) : p = f.encode ∨ Ignored p := by
  by_cases hdec : ∃ g, Frame.decode p = .ok g
  · obtain ⟨g, hg⟩ := hdec
    obtain rfl := Frame.decode_eq_ok_iff.mp hg
    left
    refine hp.eq_of_length ?_
    obtain ⟨q, hq⟩ := hp
    have hfits : g.wireLen ≤ f.wireLen := by
      rw [← Frame.length_encode, ← Frame.length_encode, ← hq, List.length_append]
      exact Nat.le_add_right _ _
    simp only [Frame.encode_eq, List.cons_append, List.cons.injEq] at hq
    obtain ⟨-, -, -, hhi, hlo, -⟩ := hq
    have hfield : g.lenField = f.lenField := by
      rw [← g.u16FromBeBytes_lenField, hhi, hlo, f.u16FromBeBytes_lenField]
    have hg' := g.toNat_lenField_eq_iff.mpr (hfits.trans hlen)
    have hf' := f.toNat_lenField_eq_iff.mpr hlen
    have := g.frameOverhead_le_wireLen
    have := f.frameOverhead_le_wireLen
    rw [hfield] at hg'
    rw [Frame.length_encode, Frame.length_encode]
    omega
  · exact .inr (ignored_of_error fun g hg => hdec ⟨g, hg⟩)

/-- Strings that are ignored leave a device as it is. -/
theorem Device.receive_of_ignored {recv : List Bytes} (h : ∀ b ∈ recv, Ignored b) (dev : Device) :
    dev.receive recv = dev := by
  induction recv with
  | nil => rfl
  | cons b recv ih =>
      show ((dev.respond b).2).receive recv = dev
      rw [h b List.mem_cons_self, ih fun b' hb' => h b' (List.mem_cons_of_mem _ hb')]

/-! ### The flash behind a part of a plan -/

/-- The bytes that a job programs, from address zero on. -/
def dataOf (job : Job) (blocks : ℕ) : Bytes :=
  match job with
  | .flash image _ => padded image blocks
  | _ => []

/-- The flash `m` with `blocks` blocks erased, and the first `k` writes of the job done. -/
def programmed (job : Job) (blocks k : ℕ) (m : ℕ → UInt8) : ℕ → UInt8 :=
  overwrite (overwrite m 0 (List.replicate (blocks * eraseBlock) 0xFF)) 0
    ((dataOf job blocks).take (k * writeBlock))

/-- Behind the erased region nothing is changed. -/
theorem programmed_of_le {job : Job} {blocks k i : ℕ} {m : ℕ → UInt8}
    (hi : blocks * eraseBlock ≤ i) : programmed job blocks k m i = m i := by
  have hdata : (dataOf job blocks).length ≤ blocks * eraseBlock := by
    cases job with
    | flash image writeOptions => exact (length_padded image blocks).le
    | _ => exact Nat.zero_le _
  rw [programmed, overwrite_of_le, overwrite_of_le]
  · simpa using hi
  · rw [List.length_take]
    omega

/-- With as many writes as there are in the region, all of the data is there. -/
theorem programmed_of_all {job : Job} {blocks k : ℕ} {m : ℕ → UInt8} (hk : 2 * blocks ≤ k) :
    programmed job blocks k m = programmed job blocks (2 * blocks) m := by
  have hdata : (dataOf job blocks).length ≤ 2 * blocks * writeBlock := by
    cases job with
    | flash image writeOptions =>
        refine (length_padded image blocks).le.trans ?_
        simp only [eraseBlock, writeBlock]
        omega
    | _ => exact Nat.zero_le _
  rw [programmed, programmed, List.take_of_length_le hdata, List.take_of_length_le]
  exact hdata.trans (Nat.mul_le_mul_right _ hk)

namespace Device

/-- A device that serves the steps has received their requests. -/
theorem Serves.receive {dev dev' : Device} {steps : List Step} (h : dev.Serves steps dev') :
    dev.receive (requests steps) = dev' := by
  induction h with
  | nil => rfl
  | @cons dev dev₁ dev₂ step steps reply hr _ _ ih =>
      show ((dev.respond step.frame.encode).2).receive (requests steps) = dev₂
      rw [hr]
      exact ih

/-- **The first `k` write steps** store the first `k` blocks of the padded image. -/
theorem serves_writes_take (dev : Device) (image : Bytes) {blocks : ℕ} (opts : SessionOptions)
    (hblocks : blocks ≤ 0xFF) {k : ℕ} (hk : k ≤ 2 * blocks) :
    dev.Serves ((writeSteps image blocks opts).take k)
      (dev.withFlash (overwrite dev.flash 0 ((padded image blocks).take (k * writeBlock)))) := by
  have hlen : (padded image blocks).length = 2 * blocks * writeBlock := by
    rw [length_padded]
    simp only [eraseBlock, writeBlock]
    omega
  induction k with
  | zero =>
      rw [Nat.zero_mul, List.take_zero, List.take_zero, overwrite_nil]
      exact .nil
  | succ k ih =>
      have hlast : (writeSteps image blocks opts).take (k + 1) =
          (writeSteps image blocks opts).take k ++
            [writeStep opts (2 * blocks) k (block image blocks k)] := by
        rw [writeSteps_eq, ← List.map_take, ← List.map_take, List.take_range, List.take_range,
          Nat.min_eq_left hk, Nat.min_eq_left (Nat.le_of_succ_le hk), List.range_succ,
          List.map_append]
        rfl
      have hdone : ((padded image blocks).take (k * writeBlock)).length = k * writeBlock := by
        rw [List.length_take_of_le]
        rw [hlen]
        exact Nat.mul_le_mul_right _ (Nat.le_of_succ_le hk)
      have hnext := overwrite_append dev.flash 0 ((padded image blocks).take (k * writeBlock))
        (block image blocks k)
      rw [hdone, Nat.zero_add, block, ← List.take_add] at hnext
      rw [hlast, Nat.succ_mul k, ← hnext]
      have haddr : k * writeBlock < 2 ^ 32 := by
        simp only [writeBlock]
        omega
      have hwrite := serves_write (dev.withFlash (overwrite dev.flash 0
        ((padded image blocks).take (k * writeBlock)))) opts (2 * blocks) haddr
        (length_block hk : (block image blocks k).length = writeBlock)
      rw [withFlash_withFlash, withFlash_flash] at hwrite
      exact (ih (Nat.le_of_succ_le hk)).append hwrite

/-- The writes of a job, in their place among the steps behind the erase. -/
theorem receive_writes (dev : Device) (image : Bytes) {blocks : ℕ} (opts : SessionOptions)
    (hblocks : blocks ≤ 0xFF) (k : ℕ) :
    (dev.receive (requests ((writeSteps image blocks opts).take k))).flash =
      overwrite dev.flash 0 ((padded image blocks).take (k * writeBlock)) := by
  by_cases hk : k ≤ 2 * blocks
  · rw [(dev.serves_writes_take image opts hblocks hk).receive, withFlash_flash]
  · have hsteps : (writeSteps image blocks opts).length = 2 * blocks := by
      rw [writeSteps_eq, List.length_map, List.length_range]
    have hdata : (padded image blocks).length = 2 * blocks * writeBlock := by
      rw [length_padded]
      simp only [eraseBlock, writeBlock]
      omega
    have hall := (dev.serves_writes_take image opts hblocks (Nat.le_refl _)).receive
    rw [← hsteps, List.take_length] at hall
    rw [List.take_of_length_le (by omega), hall, withFlash_flash, hsteps,
      List.take_of_length_le hdata.le, List.take_of_length_le]
    rw [hdata]
    exact Nat.mul_le_mul_right _ (by omega)

end Device

/-- The requests of steps, one behind the other. -/
theorem requests_append (steps steps' : List Step) :
    requests (steps ++ steps') = requests steps ++ requests steps' := List.map_append

/-- A request that every device takes without a change of its flash. -/
def Harmless (step : Step) : Prop := Ignored step.frame.encode

/-- Requests of harmless steps change no device. -/
theorem Device.receive_of_harmless {steps : List Step} (h : ∀ step ∈ steps, Harmless step)
    (dev : Device) (n : ℕ) : dev.receive (requests (steps.take n)) = dev := by
  refine Device.receive_of_ignored (fun b hb => ?_) dev
  obtain ⟨step, hstep, rfl⟩ := List.mem_map.mp hb
  exact h step (List.mem_of_mem_take hstep)

/-- A frame that neither erases nor writes is harmless. -/
theorem harmless_of_host {step : Step} {cmd : UInt8} {payload : Bytes}
    (hframe : step.frame = .host cmd payload) (he : cmd ≠ cmdErase) (hw : cmd ≠ cmdWrite) :
    Harmless step := by
  intro dev
  rw [hframe, Device.respond_encode dev rfl]
  show (dev.obey ⟨.hostToMcu, cmd, payload⟩).2 = dev
  rw [Device.obey]
  dsimp only
  by_cases hecho : cmd = cmdBaudProbe ∨ cmd = cmdBaudCommit ∨ cmd = cmdOptions
  · rw [if_pos hecho]
  by_cases hlink : cmd = cmdLinkTest
  · rw [if_neg hecho, if_pos hlink]
  · rw [if_neg hecho, if_neg hlink, if_neg he, if_neg hw]

/-- **The flash behind the first `n` requests of a plan**: the seventh erases the region, those
behind it program block after block, and no other touches the flash. -/
theorem flash_of_plan {info : TargetInfo} {job : Job} {opts : SessionOptions}
    {steps : List Step} (hjob : job ≠ .identify) (hplan : plan info job opts = .ok steps) :
    ∃ blocks, eraseBlocks info job hjob = .ok blocks ∧ ∀ (dev : Device) (n : ℕ),
      (dev.receive (requests (steps.take n))).flash =
        if n ≤ 6 then dev.flash else programmed job blocks (n - 7) dev.flash := by
  obtain ⟨reload, blocks, -, hblocks, -, hle, hsteps⟩ := (plan_eq_ok_iff hjob).mp hplan
  refine ⟨blocks, hblocks, ?_⟩
  obtain ⟨writes, tail, hprogram, hwrites, htail⟩ : ∃ writes tail : List Step,
      programSteps info blocks opts job ++ [runStep opts] = writes ++ tail ∧
      (∀ (dev : Device) k, (dev.receive (requests (writes.take k))).flash =
        overwrite dev.flash 0 ((dataOf job blocks).take (k * writeBlock))) ∧
      ∀ step ∈ tail, Harmless step := by
    have hrun : Harmless (runStep opts) := harmless_of_host rfl (by decide) (by decide)
    cases job with
    | identify => exact absurd rfl hjob
    | erase count =>
        refine ⟨[], [runStep opts], rfl, fun dev k => ?_, by simpa using hrun⟩
        have hnone : dataOf (.erase count) blocks = [] := rfl
        rw [List.take_nil, hnone, List.take_nil, overwrite_nil]
        rfl
    | flash image writeOptions =>
        refine ⟨writeSteps image blocks opts, _, List.append_assoc _ _ _,
          fun dev k => dev.receive_writes image opts hle k, ?_⟩
        have hoptions : Harmless (optionsStep info opts) :=
          harmless_of_host rfl (by decide) (by decide)
        cases writeOptions <;> simp [hrun, hoptions]
  have hfront : ∀ step ∈ baudProbeStep reload opts :: baudCommitStep reload opts ::
      (List.range linkTestRepeats).map (linkTestStep info opts), Harmless step := by
    intro step hstep
    simp only [List.mem_cons, List.mem_map] at hstep
    obtain rfl | rfl | ⟨i, -, rfl⟩ := hstep
    all_goals exact harmless_of_host rfl (by decide) (by decide)
  intro dev n
  rw [hsteps, hprogram, ← List.cons_append, ← List.cons_append, List.take_append,
    requests_append, Device.receive_append, dev.receive_of_harmless hfront]
  rw [show (baudProbeStep reload opts :: baudCommitStep reload opts ::
      (List.range linkTestRepeats).map (linkTestStep info opts)).length = 6 from rfl]
  split_ifs with hn
  · rw [Nat.sub_eq_zero_of_le hn, List.take_zero]
    rfl
  · obtain ⟨k, rfl⟩ : ∃ k, n = 7 + k := ⟨n - 7, by omega⟩
    rw [show 7 + k - 6 = k + 1 by omega, Nat.add_sub_cancel_left, List.take_succ_cons,
      List.take_append, ← List.singleton_append, requests_append, requests_append,
      Device.receive_append, Device.receive_append, (dev.serves_erase opts hle).receive,
      Device.receive_of_harmless htail, hwrites, Device.withFlash_flash, programmed]

/-! ### The flash behind a session -/

/-- **What a device receives** are the strings written with success, and of those that failed
some as well, in order. -/
theorem exists_arrived {t : List Driver.Event} {recv : List Bytes}
    (hrecv : List.Forall₂ Arrives t recv)
    (hwhole : ∀ b ∈ writeCalls t, ∀ p, p <+: b → p = b ∨ Ignored p) (dev : Device) :
    ∃ arrived, dev.receive recv = dev.receive arrived ∧ (written t).Sublist arrived ∧
      arrived.Sublist (writeCalls t) := by
  induction hrecv generalizing dev with
  | nil => exact ⟨[], rfl, .slnil, .slnil⟩
  | @cons e p t recv he hrest ih =>
      have hnothing : Ignored [] := ignored_of_lt (by decide)
      rcases e with ⟨_ | bytes | _ | _, io | _⟩ | _ | _ | _ | _ | _
      case wire.writeAll.ok =>
        obtain rfl : p = bytes := he
        obtain ⟨arrived, heq, hsub, hsup⟩ :=
          ih (fun b hb => hwhole b (List.mem_cons_of_mem _ hb)) (dev.respond p).2
        exact ⟨p :: arrived, heq, hsub.cons_cons p, hsup.cons_cons p⟩
      case wire.writeAll.error =>
        obtain ⟨arrived, heq, hsub, hsup⟩ :=
          ih (fun b hb => hwhole b (List.mem_cons_of_mem _ hb)) (dev.respond p).2
        obtain rfl | hignored := hwhole bytes List.mem_cons_self p he
        · exact ⟨p :: arrived, heq, hsub.cons p, hsup.cons_cons p⟩
        · refine ⟨arrived, ?_, hsub, hsup.cons bytes⟩
          rw [hignored dev] at heq
          show ((dev.respond p).2).receive recv = _
          rw [hignored dev, heq]
      all_goals
        obtain rfl : p = [] := he
        obtain ⟨arrived, heq, hsub, hsup⟩ := ih hwhole dev
        refine ⟨arrived, ?_, hsub, hsup⟩
        show ((dev.respond []).2).receive recv = _
        rw [hnothing dev, heq]

/-- Pulses are ignored. -/
theorem receive_pulses {t : List Driver.Event} {recv : List Bytes} {k : ℕ}
    (hrecv : List.Forall₂ Arrives t recv) (ht : writeCalls t = List.replicate k [syncByte])
    (dev : Device) : dev.receive recv = dev := by
  have hwhole : ∀ b ∈ writeCalls t, ∀ p, p <+: b → p = b ∨ Ignored p := by
    intro b hb p hp
    rw [ht] at hb
    rw [List.eq_of_mem_replicate hb] at hp
    exact .inr (ignored_of_lt (hp.length_le.trans_lt (by decide)))
  obtain ⟨arrived, heq, -, hsup⟩ := exists_arrived hrecv hwhole dev
  rw [heq]
  refine Device.receive_of_ignored (fun b hb => ?_) dev
  have := hsup.subset hb
  rw [ht] at this
  rw [List.eq_of_mem_replicate this]
  exact ignored_of_lt (by decide)

/-- The requests of a plan state their length. -/
theorem wireLen_of_plan {status : Frame} {baud : UInt32} {info : TargetInfo} {job : Job}
    {opts : SessionOptions} {steps : List Step} (hparse : parseStatus status baud = .ok info)
    (hplan : plan info job opts = .ok steps) : ∀ step ∈ steps, step.frame.wireLen ≤ 65537 := by
  intro step hstep
  obtain ⟨hchip, hoption⟩ := lengths_of_parseStatus hparse
  rw [Frame.wireLen, frameOverhead]
  cases stepOf_of_plan hplan step hstep with
  | @write image _ hjob hle i hi =>
      have hlen : (block image (eraseBlocksFor image.length) i).length = writeBlock :=
        length_block hi
      simp [writeStep, writeFrame, Frame.host, u32ToBeBytes, u16ToBeBytes, hlen, writeBlock]
  | linkTest hjob i => simp [linkTestStep, linkTestFrame, Frame.host, linkTestPrefix, hchip]
  | options hjob => simp [optionsStep, optionsFrame, Frame.host, optionsTail, hoption]
  | _ => exact Nat.le_of_ble_eq_true rfl

/-- **What a device receives of a run**: the requests up to one between those written and those
handed to the wire. -/
theorem receive_run {steps : List Step} {t : List Driver.Event} {s : Session} {a b : ℕ}
    {recv : List Bytes} (hext : Extent steps t s a b) (hrecv : List.Forall₂ Arrives t recv)
    (hlen : ∀ step ∈ steps, step.frame.wireLen ≤ 65537) (dev : Device) :
    ∃ n, a ≤ n ∧ n ≤ b ∧ dev.receive recv = dev.receive (requests (steps.take n)) := by
  have hwhole : ∀ b ∈ writeCalls t, ∀ p, p <+: b → p = b ∨ Ignored p := by
    intro bytes hbytes p hp
    rw [hext.writeCalls_eq] at hbytes
    obtain ⟨step, hstep, rfl⟩ := List.mem_map.mp hbytes
    exact ignored_of_prefix (hlen step (List.mem_of_mem_take hstep)) hp
  obtain ⟨arrived, heq, hsub, hsup⟩ := exists_arrived hrecv hwhole dev
  rw [hext.written_eq] at hsub
  rw [hext.writeCalls_eq] at hsup
  have := hext.le
  have := hext.le_sends.trans hext.sends_le
  obtain rfl | rfl : b = a ∨ b = a + 1 := by omega
  · exact ⟨b, Nat.le_refl _, Nat.le_refl _, by rw [heq, hsup.antisymm hsub]⟩
  · by_cases hall : (requests (steps.take (a + 1))).length ≤ arrived.length
    · exact ⟨a + 1, by omega, Nat.le_refl _, by rw [heq, hsup.eq_of_length_le hall]⟩
    · refine ⟨a, Nat.le_refl _, by omega, ?_⟩
      have hshort : arrived.length ≤ (requests (steps.take a)).length := by
        simp only [requests, List.length_map, List.length_take] at hall ⊢
        omega
      rw [heq, hsub.eq_of_length_le hshort]

/-- The region that a job erases: of `erase` without a count, the code flash of the part. -/
def Erases : Job → ℕ → Prop
  | .identify, blocks => blocks = 0
  | .erase (some n), blocks => blocks = n.toNat
  | .erase none, blocks => ∃ chip ∈ knownChips, blocks = chip.2.2.1 / eraseBlock
  | .flash image _, blocks => blocks = eraseBlocksFor image.length

/-- **What the result of the program says about the flash**, which was `m` before and is `m'`
now: with success the job has been done; the report of an indeterminate flash says that the
region has been erased, and any number of blocks written; and with every other error the flash is
as it was, or the region has been erased and none or all of the blocks have been written. Where
the run does not end, the flash is in any of these states. -/
def Leaves (job : Job) (blocks : ℕ) (m m' : ℕ → UInt8) : Except Exit (List String) → Prop
  | .ok _ => m' = programmed job blocks (2 * blocks) m
  | .error (.failure (.driver (.indeterminateFlash _))) => ∃ k, m' = programmed job blocks k m
  | .error .outOfFuel => m' = m ∨ ∃ k, m' = programmed job blocks k m
  | .error _ => m' = m ∨ m' = programmed job blocks 0 m ∨
      m' = programmed job blocks (2 * blocks) m

/-! ### What the report says about the flash -/

/-- The number of writes of a job. -/
def writesOf : Job → ℕ
  | .flash image _ => 2 * eraseBlocksFor image.length
  | _ => 0

/-- The writes stand behind the negotiation, the link tests and the erase. -/
theorem phases_write_iff {job : Job} (hjob : job ≠ .identify) {j : ℕ} :
    job.phases[j]? = some .write ↔ 7 ≤ j ∧ j < 7 + writesOf job := by
  cases job with
  | identify => exact absurd rfl hjob
  | erase count =>
      refine ⟨fun h => absurd (List.mem_of_getElem? h) ?_, ?_⟩
      · simp [Job.phases, Job.phasesBeforeRun]
      rintro ⟨hle, hlt⟩
      exact absurd hlt (Nat.not_lt.mpr hle)
  | flash image writeOptions =>
      have hphases : (Job.flash image writeOptions).phases =
          ([.baudProbe, .baudCommit, .linkTest, .linkTest, .linkTest, .linkTest, .erase] :
            List Phase) ++ (List.replicate (writesOf (.flash image writeOptions)) Phase.write ++
              ((if writeOptions then [Phase.options] else []) ++ [Phase.run])) := by
        simp [Job.phases, Job.phasesBeforeRun, writesOf]
      have htail : Phase.write ∉ (if writeOptions then [Phase.options] else []) ++ [Phase.run] := by
        cases writeOptions <;> decide
      generalize (if writeOptions then [Phase.options] else []) ++ [Phase.run] = tail
        at hphases htail
      rw [hphases, List.getElem?_append, List.getElem?_append, List.length_replicate]
      simp only [List.length_cons, List.length_nil]
      split_ifs with hfront hwrite
      · refine ⟨fun h => absurd (List.mem_of_getElem? h) (by decide), fun h => ?_⟩
        omega
      · rw [List.getElem?_replicate, if_pos hwrite]
        exact ⟨fun _ => by omega, fun _ => rfl⟩
      · refine ⟨fun h => absurd (List.mem_of_getElem? h) htail, fun h => ?_⟩
        omega

section Report

variable {info : TargetInfo} {job : Job} {opts : SessionOptions} {steps : List Step}
  {t : List Driver.Event} {s : Session} {a b : ℕ}

/-- Which steps of a plan write. -/
theorem isWrite_getElem (hjob : job ≠ .identify) (hplan : plan info job opts = .ok steps) {j : ℕ}
    {step : Step} (hstep : steps[j]? = some step) :
    step.phase = .write ↔ 7 ≤ j ∧ j < 7 + writesOf job := by
  rw [← phases_write_iff hjob, ← phases_of_plan hplan, List.getElem?_map, hstep, Option.map_some,
    Option.some.injEq]

/-- There is a step for each write. -/
theorem writesOf_le (hjob : job ≠ .identify) (hplan : plan info job opts = .ok steps) :
    7 + writesOf job ≤ steps.length := by
  have hlen := congrArg List.length (phases_of_plan hplan)
  rw [List.length_map] at hlen
  by_cases hnone : writesOf job = 0
  · rw [hnone, hlen]
    cases job with
    | identify => exact absurd rfl hjob
    | erase count => exact Nat.le_of_ble_eq_true rfl
    | flash image writeOptions => simp [Job.phases, Job.phasesBeforeRun]
  · have hlast := (phases_write_iff hjob (j := 7 + writesOf job - 1)).mpr (by omega)
    have := (List.getElem?_eq_some_iff.mp hlast).1
    omega

/-- A request of a write has been handed out. -/
theorem Driver.Extent.wrote_iff (hext : Extent steps t s a b) (hjob : job ≠ .identify)
    (hplan : plan info job opts = .ok steps) :
    (∃ x ∈ sends (sessionHistory t), x.phase = .write) ↔
      0 < writesOf job ∧ 7 < (sends (sessionHistory t)).length := by
  have hall := writesOf_le hjob hplan
  have hlen := length_sends hext.tracks
  constructor
  · rintro ⟨x, hx, hphase⟩
    rw [hext.tracks.sends_eq, List.mem_mapIdx] at hx
    obtain ⟨j, hj, rfl⟩ := hx
    rw [List.length_take] at hj
    have hwrite := (isWrite_getElem hjob hplan (j := j) (List.getElem?_eq_getElem (by omega))).mp
      (by simpa [Step.send] using hphase)
    omega
  · rintro ⟨hpos, hlt⟩
    rw [hext.tracks.sends_eq]
    have h7 : 7 < (steps.take s.issued).length := by
      rw [List.length_take]
      omega
    refine ⟨_, List.mem_mapIdx.mpr ⟨7, h7, rfl⟩, ?_⟩
    rw [List.getElem_take]
    exact (isWrite_getElem hjob hplan (List.getElem?_eq_getElem (by omega))).mpr (by omega)

/-- **The report tells how far a run has come.** Reported as indeterminate, the erase has been
written; else no write has been handed to the wire, or all of them have been written. -/
theorem Driver.Extent.of_report (hext : Extent steps t s a b) (hjob : job ≠ .identify)
    (hplan : plan info job opts = .ok steps) :
    (s.flashIsIndeterminate = true → 7 ≤ a) ∧
      (s.flashIsIndeterminate = false → writesOf job = 0 ∨ b ≤ 7 ∨ 7 + writesOf job ≤ a) := by
  have hwrites : ∀ step ∈ steps, step.phase = .write → step.expectReply = true := by
    intro step hstep hphase
    cases stepOf_of_plan hplan step hstep with
    | write hjob hle hi => rfl
    | _ => cases hphase
  have hiff := hext.tracks.flashIsIndeterminate_iff hwrites
  rw [hext.wrote_iff hjob hplan] at hiff
  have := hext.sends_le
  have := hext.le_sends
  refine ⟨fun hs => ?_, fun hs => ?_⟩
  · have := (hiff.mp hs).1
    omega
  · by_cases hpos : writesOf job = 0
    · exact .inl hpos
    by_cases hb : b ≤ 7
    · exact .inr (.inl hb)
    refine .inr (.inr ?_)
    have hlast : ∃ k f, rposition Step.isWrite steps = some k ∧
        (k, f) ∈ accepted (sessionHistory t) := by
      by_contra hnone
      exact Bool.false_ne_true (hs.symm.trans (hiff.mpr ⟨by omega, hnone⟩))
    obtain ⟨k, f, hk, hacc⟩ := hlast
    have hka := hext.accepted_lt k f hacc
    have hall := writesOf_le hjob hplan
    by_contra hlt
    have hno := (rposition_eq_some_iff.mp hk).2 (7 + writesOf job - 1) _ (by omega)
      (List.getElem?_eq_getElem (by omega))
    have hyes := (isWrite_getElem hjob hplan (j := 7 + writesOf job - 1)
      (List.getElem?_eq_getElem (by omega))).mpr (by omega)
    rw [Step.isWrite, hyes] at hno
    exact absurd hno (by decide)

end Report

/-! ### The flash behind the program -/

/-- A job without writes programs nothing. -/
theorem programmed_of_writesOf {job : Job} (h : writesOf job = 0) {blocks : ℕ}
    (hblocks : Erases job blocks) (k k' : ℕ) (m : ℕ → UInt8) :
    programmed job blocks k m = programmed job blocks k' m := by
  have hnone : dataOf job blocks = [] := by
    cases job with
    | flash image writeOptions =>
        obtain rfl : blocks = eraseBlocksFor image.length := hblocks
        have hzero : eraseBlocksFor image.length = 0 := by
          simp only [writesOf] at h
          omega
        refine List.eq_nil_of_length_eq_zero ?_
        rw [dataOf, length_padded, hzero, Nat.zero_mul]
    | _ => rfl
  rw [programmed, programmed, hnone, List.take_nil, List.take_nil]

/-- Behind its last write a job has programmed all of its data. -/
theorem programmed_of_writesOf_le {job : Job} {blocks k : ℕ} (hblocks : Erases job blocks)
    (hk : writesOf job ≤ k) (m : ℕ → UInt8) :
    programmed job blocks k m = programmed job blocks (2 * blocks) m := by
  by_cases hnone : writesOf job = 0
  · exact programmed_of_writesOf hnone hblocks _ _ _
  cases job with
  | flash image writeOptions =>
      obtain rfl : blocks = eraseBlocksFor image.length := hblocks
      exact programmed_of_all hk
  | _ => exact absurd rfl hnone

/-- An identification programs nothing, and erases nothing. -/
theorem programmed_identify (k : ℕ) (m : ℕ → UInt8) : programmed .identify 0 k m = m := by
  have hnone : dataOf .identify 0 = [] := rfl
  rw [programmed, hnone, List.take_nil, overwrite_nil, Nat.zero_mul, List.replicate_zero,
    overwrite_nil]

/-- Every job erases some number of blocks. -/
theorem exists_erases (job : Job) : ∃ blocks, Erases job blocks := by
  cases job with
  | erase count =>
      obtain (_ | n) := count
      · exact ⟨_, _, List.mem_cons_self, rfl⟩
      · exact ⟨_, rfl⟩
  | _ => exact ⟨_, rfl⟩

/-- The blocks that a plan erases are those of its job. -/
theorem erases_of_eraseBlocks {status : Frame} {baud : UInt32} {info : TargetInfo} {job : Job}
    {hjob : job ≠ .identify} {blocks : ℕ} (hparse : parseStatus status baud = .ok info)
    (h : eraseBlocks info job hjob = .ok blocks) : Erases job blocks := by
  cases job with
  | identify => exact absurd rfl hjob
  | erase count =>
      obtain (_ | n) := count
      · rw [eraseBlocks] at h
        cases hcap : info.codeFlash with
        | none =>
            rw [hcap] at h
            cases h
        | some cap =>
            rw [hcap] at h
            cases h
            obtain ⟨chip, hmem, -, rfl⟩ := (readOff_of_parseStatus hparse).capacity hcap
            exact ⟨chip, hmem, rfl⟩
      · cases h
        rfl
  | flash image writeOptions => exact (eraseBlocks_flash_iff.mp h).2.2

/-- A state of the flash, as the result of a run tells it. -/
theorem leaves_of_run {job : Job} {blocks : ℕ} {m m' : ℕ → UInt8} {r : Except Halt Session}
    (out : List String) (hreach : r ≠ .error .unreachable)
    (hany : m' = m ∨ ∃ k, m' = programmed job blocks k m)
    (hok : ∀ s, r = .ok s → m' = programmed job blocks (2 * blocks) m)
    (hdetermined : ∀ e, r = .error (.error e) → (∀ inner, e ≠ .indeterminateFlash inner) →
      m' = m ∨ m' = programmed job blocks 0 m ∨ m' = programmed job blocks (2 * blocks) m)
    (hindeterminate : ∀ inner, r = .error (.error (.indeterminateFlash inner)) →
      ∃ k, m' = programmed job blocks k m) :
    Leaves job blocks m m' ((r.mapError Exit.ofHalt).map fun _ => out) := by
  rcases r with (e | _ | _) | s
  · by_cases he : ∃ inner, e = .indeterminateFlash inner
    · obtain ⟨inner, rfl⟩ := he
      exact hindeterminate inner rfl
    · have hplain := hdetermined e rfl fun inner hbad => he ⟨inner, hbad⟩
      cases e with
      | indeterminateFlash inner => exact absurd ⟨inner, rfl⟩ he
      | _ => exact hplain
  · exact absurd rfl hreach
  · exact hany
  · exact hok s rfl

/-- The flash behind any part of an identification. -/
theorem identify_leaves (opts : SessionOptions) {r : Except Halt Session} (out : List String)
    (hreach : r ≠ .error .unreachable) (dev : Device) (n : ℕ) :
    (dev.receive (requests ([runStep opts].take n))).flash = dev.flash ∧
      Leaves .identify 0 dev.flash dev.flash ((r.mapError Exit.ofHalt).map fun _ => out) := by
  have hidle : ∀ step ∈ [runStep opts], Harmless step := by
    intro step hstep
    obtain rfl := List.mem_singleton.mp hstep
    exact harmless_of_host rfl (by decide) (by decide)
  have hsame := fun k => (programmed_identify k dev.flash).symm
  exact ⟨by rw [Device.receive_of_harmless hidle], leaves_of_run out hreach (.inl rfl)
    (fun _ _ => hsame _) (fun _ _ _ => .inl rfl) fun _ _ => ⟨0, hsame 0⟩⟩

/-- An error that is left as it is tells that the flash is not indeterminate. -/
theorem flashIsIndeterminate_of_wrap {s : Session} {e : Driver.Error}
    (h : ∀ inner, wrap s e ≠ .indeterminateFlash inner) : s.flashIsIndeterminate = false := by
  cases hs : s.flashIsIndeterminate with
  | false => rfl
  | true => exact absurd (by rw [wrap, hs]; rfl) (h e)

/-- **The flash behind a run**, and what the result of the run says about it. -/
theorem run_leaves {status : Frame} {baud : UInt32} {info : TargetInfo} {job : Job}
    {opts : SessionOptions} {steps : List Step} {w : World} {drain : DrainConfig} {fuel : ℕ}
    {r : Except Halt Session} {t : List Driver.Event} {recv : List Bytes} (out : List String)
    (hparse : parseStatus status baud = .ok info) (hplan : plan info job opts = .ok steps)
    (hrun : runFresh w drain fuel steps = (r, t)) (hrecv : List.Forall₂ Arrives t recv)
    (dev : Device) :
    ∃ blocks, Erases job blocks ∧ Leaves job blocks dev.flash (dev.receive recv).flash
        ((r.mapError Exit.ofHalt).map fun _ => out) ∧
      ∀ i, blocks * eraseBlock ≤ i → (dev.receive recv).flash i = dev.flash i := by
  obtain ⟨hreach, s, a, b, hext, herror, hok⟩ := run_extent hrun
  obtain ⟨n, han, hnb, hreceive⟩ :=
    receive_run hext hrecv (wireLen_of_plan hparse hplan) dev
  rw [hreceive]
  by_cases hjob : job = .identify
  · subst hjob
    cases hplan
    obtain ⟨hsame, hleaves⟩ := identify_leaves opts out hreach dev n
    rw [hsame]
    exact ⟨0, rfl, hleaves, fun _ _ => rfl⟩
  obtain ⟨blocks, hblocks, hflash⟩ := flash_of_plan hjob hplan
  have herases := erases_of_eraseBlocks hparse hblocks
  obtain ⟨hind, hdet⟩ := hext.of_report hjob hplan
  have hall := writesOf_le hjob hplan
  have hfull := fun {k} hk => programmed_of_writesOf_le (k := k) herases hk dev.flash
  have hbehind : 7 ≤ n → (dev.receive (requests (steps.take n))).flash =
      programmed job blocks (n - 7) dev.flash := by
    intro h7
    rw [hflash, if_neg (by omega)]
  have hbefore : ¬ 7 ≤ n → (dev.receive (requests (steps.take n))).flash = dev.flash := by
    intro h7
    rw [hflash, if_pos (by omega)]
  have hany : (dev.receive (requests (steps.take n))).flash = dev.flash ∨
      ∃ k, (dev.receive (requests (steps.take n))).flash = programmed job blocks k dev.flash := by
    by_cases h7 : 7 ≤ n
    · exact .inr ⟨_, hbehind h7⟩
    · exact .inl (hbefore h7)
  refine ⟨blocks, herases, leaves_of_run out hreach hany ?_ ?_ ?_, ?_⟩
  · intro s' hs'
    obtain ⟨ha, -⟩ := hok s' hs'
    rw [hbehind (by omega), hfull (by omega)]
  · intro e he hplain
    obtain ⟨e', -, rfl⟩ := herror e he
    by_cases h7 : 7 ≤ n
    · rw [hbehind h7]
      obtain hnone | hb | ha := hdet (flashIsIndeterminate_of_wrap hplain)
      · exact .inr (.inl (programmed_of_writesOf hnone herases _ _ _))
      · exact .inr (.inl (by rw [show n - 7 = 0 by omega]))
      · exact .inr (.inr (hfull (by omega)))
    · exact .inl (hbefore h7)
  · intro inner he
    obtain ⟨e', hplain, heq⟩ := herror _ he
    have hs := ((wrap_eq_indeterminateFlash_iff hplain).mp heq.symm).1
    have := hind hs
    exact ⟨_, hbehind (by omega)⟩
  · intro i hi
    obtain hsame | ⟨k, hk⟩ := hany
    · rw [hsame]
    · rw [hk, programmed_of_le hi]

/-- A session that ends before its run leaves the flash as it was. -/
theorem leaves_of_noRun (job : Job) (blocks : ℕ) (m : ℕ → UInt8) {e : Exit}
    (he : e = .outOfFuel ∨ ∃ f, e = .failure f ∧ ∀ inner, f ≠ .driver (.indeterminateFlash inner)) :
    Leaves job blocks m m (.error e) := by
  obtain rfl | ⟨f, rfl, hplain⟩ := he
  · exact .inl rfl
  · cases f with
    | driver e =>
        cases e with
        | indeterminateFlash inner => exact absurd rfl (hplain inner)
        | _ => exact .inl rfl
    | _ => exact .inl rfl

/-- **The flash behind a session**: the pulses are ignored, and then its run leaves what it
leaves, or there is none. -/
theorem session_leaves (w : World) (opts : SessionOptions) (wait : ℕ) (drain : DrainConfig)
    (job : Job) (fuel : ℕ) {recv : List Bytes}
    (hrecv : List.Forall₂ Arrives (session w opts wait drain job fuel []).2 recv) (dev : Device)
    (out : List String) :
    ∃ blocks, Erases job blocks ∧ Leaves job blocks dev.flash (dev.receive recv).flash
        ((session w opts wait drain job fuel []).1.map fun _ => out) ∧
      ∀ i, blocks * eraseBlock ≤ i → (dev.receive recv).flash i = dev.flash i := by
  obtain ⟨t₁, t₂, k, ht, hpulses, -, hrest⟩ := session_phases w opts wait drain job fuel
  rw [ht] at hrecv
  have hrecv₁ := (List.forall₂_take_append _ _ _ hrecv.flip).flip
  have hrecv₂ := (List.forall₂_drop_append _ _ _ hrecv.flip).flip
  have hreceive : dev.receive recv = dev.receive (recv.drop t₁.length) := by
    conv_lhs => rw [← List.take_append_drop t₁.length recv]
    rw [Device.receive_append, receive_pulses hrecv₁ hpulses]
  rw [hreceive]
  obtain ⟨rfl, e, he, hfails⟩ | ⟨status, info, steps, r, -, hparse, hplan, hrun, hr⟩ := hrest
  · have hnone : recv.drop t₁.length = [] := List.forall₂_nil_left_iff.mp hrecv₂
    rw [hnone, he]
    obtain ⟨blocks, hblocks⟩ := exists_erases job
    exact ⟨blocks, hblocks, leaves_of_noRun job blocks _ hfails, fun _ _ => rfl⟩
  · obtain ⟨blocks, hblocks, hleaves, hframe⟩ := run_leaves out hparse hplan hrun hrecv₂ dev
    refine ⟨blocks, hblocks, ?_, hframe⟩
    rw [hr]
    obtain (halt | s') := r
    · exact hleaves
    · exact hleaves

/-- **What the program leaves in the flash**, for any command line, any files and ports, and
however the line answers, where what is written with success arrives whole, and of a write that
fails any part from its start: without a session no change; behind a session what its result
says. In particular the error that speaks of an indeterminate flash is missing only where the
flash is as it was, or erased, or complete, and success means that the region holds the image and
`0xFF` up to its end. -/
theorem main_leaves (m : Machine) (argv : List String) (fuel : ℕ) {recv : List Bytes}
    (hrecv : List.Forall₂ Arrives (main m argv fuel).2 recv) (dev : Device) :
    (recv = [] ∧ ∀ out, (main m argv fuel).1 = .ok out → ∃ args, parseArgs argv = .ok args ∧
      (args.command = some "ports" ∨ args.command = some "explain")) ∨
    ∃ args job blocks, parseArgs argv = .ok args ∧ JobOf m args job ∧ Erases job blocks ∧
      Leaves job blocks dev.flash (dev.receive recv).flash (main m argv fuel).1 ∧
      ∀ i, blocks * eraseBlock ≤ i → (dev.receive recv).flash i = dev.flash i := by
  obtain ⟨hnil, -, hout⟩ | ⟨args, job, port, w, hargs, hjob, -, -, hmain⟩ := main_cases m argv fuel
  · rw [hnil] at hrecv
    cases hrecv
    exact .inl ⟨rfl, hout⟩
  · rw [hmain] at hrecv ⊢
    obtain ⟨blocks, hleaves⟩ := session_leaves w args.sessionOptions args.wait args.drainConfig
      job fuel hrecv dev [doneLine job]
    exact .inr ⟨args, job, blocks, hargs, hjob, hleaves⟩

/-- Of every run, exactly what was written with success may arrive. -/
theorem arrives_written (t : List Driver.Event) :
    List.Forall₂ Arrives t (t.map fun e => e.writeOk.getD []) := by
  refine List.forall₂_map_right_iff.mpr (List.forall₂_same.mpr fun e _ => ?_)
  rcases e with ⟨_ | bytes | _ | _, _ | _⟩ | _ | _ | _ | _ | _
  case wire.writeAll.error => exact List.nil_prefix
  all_goals rfl

/-- A machine whose port brings the captured replies, and fails behind the erase. -/
def unplugged : Machine where
  readToString _ := .ok ":0300000002004CAF\n:00000001FF\n".toList
  openPort _ _ _ := .ok
    { playback (benchStatus.encode :: benchReplies) with
      answer h op := match op with
        | .writeAll _ => if 8 ≤ (written h).length then .error ⟨"unplugged"⟩ else .ok ()
        | _ => .ok () }
  ports := []

/-- `main_leaves` for a line that is cut behind the erase: the error says that the flash is
indeterminate. -/
theorem main_leaves_unplugged :
    let done := main unplugged ["write", "a.hex", "--port", "tty"] 40
    done.1 = .error (.failure (.driver (.indeterminateFlash (.io ⟨"unplugged"⟩)))) ∧
      ∃ args job blocks, parseArgs ["write", "a.hex", "--port", "tty"] = .ok args ∧
        JobOf unplugged args job ∧ Erases job blocks ∧
        Leaves job blocks benchDevice.flash
          (benchDevice.receive (done.2.map fun e => e.writeOk.getD [])).flash done.1 := by
  have herror : (main unplugged ["write", "a.hex", "--port", "tty"] 40).1 =
      .error (.failure (.driver (.indeterminateFlash (.io ⟨"unplugged"⟩)))) := by decide +kernel
  refine ⟨herror, ?_⟩
  obtain ⟨hnil, -⟩ | ⟨args, job, blocks, hargs, hjob, hblocks, hleaves, -⟩ :=
    main_leaves unplugged ["write", "a.hex", "--port", "tty"] 40 (arrives_written _) benchDevice
  · have hsome : (main unplugged ["write", "a.hex", "--port", "tty"] 40).2.length ≠ 0 := by
      decide +kernel
    exact absurd (by rw [List.map_eq_nil_iff.mp hnil]; rfl) hsome
  · exact ⟨args, job, blocks, hargs, hjob, hblocks, hleaves⟩

/-! ### What the user is told -/

/-- A message speaks of an indeterminate flash. -/
def Warns (stderr : String) : Prop := "INDETERMINATE".toList <:+: stderr.toList

/-- The error of an indeterminate flash says so in its text, whatever error it wraps. -/
theorem warns_of_indeterminateFlash (debugStr : List Char → String) (debugChar : UInt8 → String)
    (inner : Driver.Error) :
    Warns ("stcbsl: " ++
      (Failure.driver (.indeterminateFlash inner)).message debugStr debugChar) := by
  have hword : "\n  flash is in an INDETERMINATE state — part of the image was " =
      "\n  flash is in an " ++ "INDETERMINATE" ++ " state — part of the image was " := by
    decide +kernel
  unfold Warns Failure.message Driver.Error.display
  rw [hword]
  simp only [String.toList_append]
  refine List.IsInfix.trans ?_ (List.suffix_append _ _).isInfix
  refine List.IsInfix.trans ?_ (List.prefix_append _ _).isInfix
  refine List.IsInfix.trans ?_ (List.prefix_append _ _).isInfix
  refine List.IsInfix.trans ?_ (List.suffix_append _ _).isInfix
  exact List.infix_append _ _ _

/-- **Without a warning the flash is in a definite state**, for any command line, any files and
ports, and however the line answers: where the exit code is that of success, or the message on
the standard error does not speak of an indeterminate flash, the flash is as it was, or the
region of the job has been erased, and none or all of its blocks have been written. -/
theorem flash_of_exitCode (debugStr : List Char → String) (debugChar : UInt8 → String)
    (m : Machine) (argv : List String) (fuel : ℕ) {recv : List Bytes}
    (hrecv : List.Forall₂ Arrives (main m argv fuel).2 recv) (dev : Device) {code : ExitCode}
    (hcode : exitCode debugStr debugChar (main m argv fuel).1 = some code)
    (hquiet : ∀ stderr, code = .failure stderr → ¬ Warns stderr) :
    (dev.receive recv).flash = dev.flash ∨
      ∃ args job blocks, parseArgs argv = .ok args ∧ JobOf m args job ∧ Erases job blocks ∧
        ((dev.receive recv).flash = programmed job blocks 0 dev.flash ∨
          (dev.receive recv).flash = programmed job blocks (2 * blocks) dev.flash) := by
  obtain ⟨hnil, -, -⟩ | ⟨args, job, port, w, hargs, hjob, -, -, hmain⟩ := main_cases m argv fuel
  · rw [hnil] at hrecv
    cases hrecv
    exact .inl rfl
  rw [hmain] at hrecv hcode
  obtain ⟨blocks, hblocks, hleaves, -⟩ := session_leaves w args.sessionOptions args.wait
    args.drainConfig job fuel hrecv dev [doneLine job]
  have hregion : ∀ {m' : ℕ → UInt8}, m' = dev.flash ∨ m' = programmed job blocks 0 dev.flash ∨
      m' = programmed job blocks (2 * blocks) dev.flash → m' = dev.flash ∨
      ∃ args job blocks, parseArgs argv = .ok args ∧ JobOf m args job ∧ Erases job blocks ∧
        (m' = programmed job blocks 0 dev.flash ∨
          m' = programmed job blocks (2 * blocks) dev.flash) :=
    fun hm => hm.imp_right fun hm => ⟨args, job, blocks, hargs, hjob, hblocks, hm⟩
  rcases hr : (session w args.sessionOptions args.wait args.drainConfig job fuel []).1 with e | _
  · rw [hr] at hleaves hcode
    cases e with
    | failure f =>
        cases f with
        | driver e =>
            cases e with
            | indeterminateFlash inner =>
                cases hcode
                exact absurd (warns_of_indeterminateFlash debugStr debugChar inner)
                  (hquiet _ rfl)
            | _ => exact hregion hleaves
        | _ => exact hregion hleaves
    | help => exact hregion hleaves
    | panic => cases hcode
    | unreachable => cases hcode
    | outOfFuel => cases hcode
  · rw [hr] at hleaves
    exact hregion (.inr (.inr hleaves))

end Stcbsl
