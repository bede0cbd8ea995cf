import Stcbsl.CodeFlash
import Stcbsl.Corruption

/-!
# A Corrupted Block Is Caught

The device answers a write with the sum of the bytes it has received. One byte changed on the
way changes that sum, so the session rejects the answer, reports the address of the block with
both sums, and stays where it is: no later request is handed out, and the flash is reported as
indeterminate. This holds for the last block as for the first, since a block counts as written
only when its answer has been accepted.

## What is assumed of the device

Nothing but that its answer is the ack of what it has received. The block that arrives is any
string of the length of the one that was sent and different from it in one byte; the answer to it
is an ack for that string, and the session is in any reachable state in which it awaits the answer
to the write step. Changes that cancel in the sum are not caught, which is why the change is one
of a single byte.

## Main results

* `sumMod256_ne_of_changedAt` — one changed byte changes the sum.
* `Stc89.write_of_plan` — what a write step of a plan sends, and expects.
* `corrupted_block_is_caught` — what a session makes of the answer to a corrupted block.
-/

namespace Stcbsl

open Session Stc89 OneChange

/-- **The sum of a block notices one changed byte.** -/
theorem sumMod256_ne_of_changedAt {i : ℕ} {l l' : Bytes} (h : ChangedAt i l l') :
    sumMod256 l' ≠ sumMod256 l := by
  rw [← blockAck_eq, ← blockAck_eq]
  exact checksum_ne_of_changedAt h

/-- **What a write step of a plan sends, and expects**: 128 bytes at its address, and their
sum. -/
theorem Stc89.write_of_plan {info : TargetInfo} {image : Bytes} {writeOptions : Bool}
    {opts : SessionOptions} {steps : List Step}
    (hplan : plan info (.flash image writeOptions) opts = .ok steps) {step : Step}
    (hmem : step ∈ steps) (hw : step.phase = .write) :
    ∃ addr sent, step.writeAddr = some addr ∧ WritesAt step.frame addr.toNat 128 sent ∧
      sent.length = 128 ∧ step.expect = .blockAck (sumMod256 sent) := by
  cases stepOf_of_plan hplan step hmem with
  | @write image' writeOptions' hjob hle i hi =>
      cases hjob
      have haddr : (UInt32.ofNat (i * writeBlock)).toNat = i * 128 := by
        rw [UInt32.toNat_ofNat', writeBlock, Nat.mod_eq_of_lt (by omega)]
      refine ⟨_, block image (eraseBlocksFor image.length) i, rfl, ?_, length_block hi, ?_⟩
      · rw [haddr]
        exact writesAt_writeStep image opts _ hle hi
      · rw [← blockAck_eq]
        rfl
  | _ => cases hw

/-- A block ack with another sum is a mismatch, and the session stays as it was. -/
theorem Session.onReply_blockAck_mismatch {s : Session} (ha : s.awaiting = true) {step : Step}
    (hs : s.steps[s.index]? = some step) {want got : UInt8} (he : step.expect = .blockAck want)
    (hne : got ≠ want) :
    s.onReply (.mcu 0x80 [got]) =
      (.error (.blockAckMismatch (step.writeAddr.getD 0) want got), s) := by
  obtain ⟨hlt, rfl⟩ := List.getElem?_eq_some_iff.mp hs
  have hcheck : s.steps[s.index].checkReply (.mcu 0x80 [got]) =
      .error (.blockAckMismatch (s.steps[s.index].writeAddr.getD 0) want got) := by
    simp [Step.checkReply, he, hne, Frame.mcu, replyAck]
  simp [onReply, ha, hcheck]

/-- **A corrupted block is always caught and reported.** In every planned flash session, and in
every reachable state of it that awaits the reply to a write step, whichever that is: the device
has been sent 128 bytes at the address of the step; if it received them with exactly one byte
changed and answers with the sum of what it received, the session reports a mismatch with the
address of the step and both sums, and is unchanged. Its flash is then indeterminate, and no
later request is handed out, however often it is asked. -/
theorem corrupted_block_is_caught {info : TargetInfo} {image : Bytes} {writeOptions : Bool}
    {opts : SessionOptions} {steps : List Step}
    (hplan : plan info (.flash image writeOptions) opts = .ok steps) {calls : List Call}
    {step : Step} (ha : ((Session.new steps).runCalls calls).2.awaiting = true)
    (hs : steps[((Session.new steps).runCalls calls).2.index]? = some step)
    (hw : step.phase = .write) :
    let s := ((Session.new steps).runCalls calls).2
    ∃ addr sent, step.writeAddr = some addr ∧ WritesAt step.frame addr.toNat 128 sent ∧
      sent.length = 128 ∧
      ∀ received i, ChangedAt i sent received →
        let reply := Frame.mcu 0x80 [sumMod256 received]
        s.onReply reply =
          (.error (.blockAckMismatch addr (sumMod256 sent) (sumMod256 received)), s) ∧
        sumMod256 received ≠ sumMod256 sent ∧ s.flashIsIndeterminate = true ∧
        ∀ more, (∀ c ∈ more, c = .nextAction ∨ c = .onReply reply) →
          sends (s.runCalls more).1 = [] ∧ (s.runCalls more).2 = s := by
  intro s
  have t := tracks_runCalls steps calls
  obtain ⟨addr, sent, haddr, hsent, hlen, hexpect⟩ :=
    write_of_plan hplan (List.mem_of_getElem? hs) hw
  refine ⟨addr, sent, haddr, hsent, hlen, ?_⟩
  intro received i hchange reply
  have hne := sumMod256_ne_of_changedAt hchange
  have hr := onReply_blockAck_mismatch ha (by rw [t.steps_eq]; exact hs) hexpect hne
  rw [haddr, Option.getD_some] at hr
  exact ⟨hr, hne, t.flashIsIndeterminate_of_awaiting ha hs hw,
    fun more hmore => runCalls_of_rejected ha hr hmore⟩

/-- The steps of a flash session of the captured target, for three bytes. -/
def benchFlash : List Step :=
  baudProbeStep 0xFD .default :: baudCommitStep 0xFD .default ::
    ((List.range linkTestRepeats).map (linkTestStep benchTarget .default) ++
      eraseStep 2 .default ::
        (programSteps benchTarget 2 .default (.flash [0x02, 0x00, 0x4C] false) ++
          [runStep .default]))

/-- The plan of the three-byte image on the captured target, step by step. -/
theorem plan_benchFlash :
    plan benchTarget (.flash [0x02, 0x00, 0x4C] false) .default = .ok benchFlash := by
  decide +kernel

/-- The calls that bring it to the point where it awaits the answer to its first block. -/
def upToFirstBlock : List Session.Call :=
  upToErase ++ [.onReply (.mcu replyAck [0xF0, 0x02, 0xC4, 0x2B, 0x01, 0x83, 0x74]), .nextAction]

/-- `corrupted_block_is_caught` for the first block of the captured target: an answer for some
block of one changed byte is rejected. -/
theorem corrupted_block_is_caught_bench :
    ∃ sent received : Bytes, sent.length = 128 ∧ (∃ i, ChangedAt i sent received) ∧
      (((Session.new benchFlash).runCalls upToFirstBlock).2.onReply
        (.mcu 0x80 [sumMod256 received])).1 =
          .error (.blockAckMismatch 0 (sumMod256 sent) (sumMod256 received)) := by
  have ha : ((Session.new benchFlash).runCalls upToFirstBlock).2.awaiting = true := by
    decide +kernel
  have hs : benchFlash[((Session.new benchFlash).runCalls upToFirstBlock).2.index]? =
      some (writeStep .default 4 0 (block [0x02, 0x00, 0x4C] 2 0)) := by
    decide +kernel
  obtain ⟨addr, sent, haddr, -, hlen, hcaught⟩ :=
    corrupted_block_is_caught plan_benchFlash ha hs rfl
  obtain rfl := Option.some.inj haddr
  have hlt : 0 < sent.length := by omega
  have hchange : ChangedAt 0 sent (sent.set 0 (sent[0] + 1)) :=
    changedAt_iff_set.mpr ⟨sent[0], _, List.getElem?_eq_getElem hlt, by simp, rfl⟩
  exact ⟨sent, _, hlen, ⟨0, hchange⟩, congrArg Prod.fst (hcaught _ 0 hchange).1⟩

end Stcbsl
