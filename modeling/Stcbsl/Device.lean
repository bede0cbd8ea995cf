import Stcbsl.Overwrite
import Stcbsl.Stc89
import Stcbsl.Stream

/-!
# A Planned Session against the Device

A model of the bootloader at the other end of the line, as the comments of the source
describe it, and the closed loop of a session with it: each request goes to the device, the
device's reply goes through the receiver in any chunking, and what comes out goes to
`onReply`.

## The device

A device has an identity, a payload for its erase reply and a flash, and obeys host frames
(`Device.obey`). It is given bytes and answers with bytes (`Device.respond`), so that both
directions go through the codec. It is no part of the program: it is what the comments and the
captures say about the other end, and results about the program alone do not mention it.

## The argument

That a device's answers fit the steps of a plan (`Serves`) is a statement about the device and the
plan, with no session in it. The session is taken care of once, by induction over the steps that
are left (`run_of_serves`), and the flash by laying the blocks of the plan over what was there.

## Main results

* `run_of_serves` — a device whose answers fit the steps carries a session to its end.
* `serves_plan` — the device's answers fit every step of a flash plan.
* `closed_loop_flash` — flashing is correct: the session finishes without an error, and the
  flash holds the image, `0xFF` up to the end of the erased region, and what it held before
  behind it.
-/

namespace Stcbsl

open Resync Session Stc89 Overwrite

/-! ### Byte order -/

/-- `u32::from_be_bytes`. -/
def u32FromBeBytes (b3 b2 b1 b0 : UInt8) : UInt32 :=
  UInt32.ofNat (((b3.toNat * 256 + b2.toNat) * 256 + b1.toNat) * 256 + b0.toNat)

/-- Splitting a word into its four bytes and reading them back changes nothing. -/
theorem u32FromBeBytes_split (w : UInt32) :
    u32FromBeBytes (w >>> 24).toUInt8 (w >>> 16).toUInt8 (w >>> 8).toUInt8 w.toUInt8 = w := by
  have hw := w.toNat_lt
  apply UInt32.toNat_inj.mp
  simp only [u32FromBeBytes, UInt32.toNat_ofNat', UInt32.toNat_toUInt8, UInt32.toNat_shiftRight,
    Nat.shiftRight_eq_div_pow, UInt32.reduceToNat, Nat.reduceMod, Nat.reducePow]
  omega

/-! ### The device -/

/-- The bootloader: its identity, the payload of its erase reply, and its code flash. -/
structure Device where
  chipId : Bytes
  eraseReply : Bytes
  flash : ℕ → UInt8
  /-- seven bytes, of which five are unexplained -/
  length_eraseReply : eraseReply.length = 7
  chipId_prefix : chipId <+: eraseReply

/-- The sum of the bytes, modulo 256. -/
def sumMod256 (data : Bytes) : UInt8 := UInt8.ofNat (data.map UInt8.toNat).sum

namespace Device

/-- The device with other flash content. -/
def withFlash (dev : Device) (m : ℕ → UInt8) : Device := { dev with flash := m }

/-- The flash of a device is the one it is given. -/
@[simp] theorem withFlash_flash (dev : Device) (m : ℕ → UInt8) : (dev.withFlash m).flash = m :=
  rfl

/-- Of two contents given to the flash the second one stays. -/
@[simp] theorem withFlash_withFlash (dev : Device) (m m' : ℕ → UInt8) :
    (dev.withFlash m).withFlash m' = dev.withFlash m' := rfl

/-- What the device does on a host frame, and what it answers. -/
def obey (dev : Device) (f : Frame) : Option Frame × Device :=
  if f.cmd = cmdBaudProbe ∨ f.cmd = cmdBaudCommit ∨ f.cmd = cmdOptions then
    -- echoed with `DIR` swapped
    (some (.mcu f.cmd f.payload), dev)
  else if f.cmd = cmdLinkTest then (some (.mcu 0x80 []), dev)
  else if f.cmd = cmdErase then
    match f.payload with
    | n :: _ =>
        (some (.mcu 0x80 dev.eraseReply),
          dev.withFlash (overwrite dev.flash 0 (List.replicate (n.toNat * 256) 0xFF)))
    | [] => (none, dev)
  else if f.cmd = cmdWrite then
    match f.payload with
    | a3 :: a2 :: a1 :: a0 :: c1 :: c0 :: rest =>
        let data := rest.take (u16FromBeBytes c1 c0).toNat
        (some (.mcu 0x80 [sumMod256 data]),
          dev.withFlash (overwrite dev.flash (u32FromBeBytes a3 a2 a1 a0).toNat data))
    | _ => (none, dev)
  -- the run command is never answered
  else (none, dev)

/-- The device's response to the bytes of one host frame. -/
def respond (dev : Device) (bytes : Bytes) : Option Frame × Device :=
  match Frame.decode bytes with
  | .ok f => if f.dir = .hostToMcu then dev.obey f else (none, dev)
  | .error _ => (none, dev)

/-- A device responds to the bytes of a host frame as it obeys the frame. -/
theorem respond_encode (dev : Device) {f : Frame} (h : f.dir = .hostToMcu) :
    dev.respond f.encode = dev.obey f := by
  rw [respond, Frame.decode_encode]
  exact if_pos h

/-- An answer the session is satisfied by: a fitting reply that the receiver recognises, or
silence where no reply is expected. -/
def Fits (step : Step) : Option Frame → Prop
  | some f => step.Accepts f ∧ f.LenPlausible
  | none => step.expectReply = false

/-- The device's answers fit the steps, and leave it in the last state. -/
inductive Serves : Device → List Step → Device → Prop
  | nil {dev : Device} : Serves dev [] dev
  | cons {dev dev' dev'' : Device} {step : Step} {steps : List Step} {reply : Option Frame} :
      dev.respond step.frame.encode = (reply, dev') → Fits step reply →
      Serves dev' steps dev'' → Serves dev (step :: steps) dev''

/-- A device serves steps one after the other. -/
theorem Serves.append {dev dev' dev'' : Device} {steps steps' : List Step}
    (h : Serves dev steps dev') (h' : Serves dev' steps' dev'') :
    Serves dev (steps ++ steps') dev'' := by
  induction h with
  | nil => exact h'
  | cons hr hf _ ih => exact .cons hr hf (ih h')

/-- One step, with the reply to it. -/
theorem Serves.single {dev dev' : Device} {step : Step} (reply : Option Frame)
    (hr : dev.respond step.frame.encode = (reply, dev')) (hf : Fits step reply) :
    Serves dev [step] dev' :=
  .cons hr hf .nil

end Device

/-! ### The closed loop -/

/-- The two ends of the line, and what the session's caller has seen. -/
structure Bench where
  session : Session
  rx : Receiver
  device : Device
  history : List Event

namespace Bench

/-- A new session over the steps, and a new receiver. -/
def start (steps : List Step) (device : Device) : Bench :=
  { session := Session.new steps, rx := .new, device, history := [] }

/-- Hand a request to the device, pass its reply through the receiver by the calls the
chunking prescribes, drain it, and pass every frame to the session. -/
def exchange (chunking : ℕ → Bytes → List Receiver.Call) (x : Send) (b : Bench) : Bench :=
  let answer := b.device.respond x.bytes
  let wire := answer.1.elim [] Frame.encode
  let polled := (chunking x.index wire).foldl Receiver.Polled.call
    { rx := b.rx, results := [], taken := [] }
  let results := polled.results ++ polled.rx.drain.1
  let answered := b.session.runCalls (results.filterMap fun r => r.toOption.map Call.onReply)
  { session := answered.2
    rx := polled.rx.drain.2
    device := answer.2
    history := b.history ++ answered.1 }

/-- Ask for an action and carry out the request, until there is no further request. The
fuel bounds the number of actions. -/
def run (chunking : ℕ → Bytes → List Receiver.Call) : ℕ → Bench → Option Bench
  | 0, _ => none
  | fuel + 1, b =>
      let asked := b.session.nextAction
      let b : Bench :=
        { b with session := asked.2, history := b.history ++ [.action asked.1] }
      match asked.1 with
      | .send x => run chunking fuel (b.exchange chunking x)
      | _ => some b

end Bench

/-! ### A session against a device that fits -/

/-- A reply that arrives alone comes out alone, however it is cut. -/
theorem extract_reply {f : Frame} (hf : f.LenPlausible) {calls : List Receiver.Call}
    (h : fedBytes calls = f.encode) :
    extract calls = { results := [.ok f], discarded := [], pending := [] } := by
  have hscan : scan frames f.encode = ([.accepted f.encode f], []) := by
    have := frames_next_encode hf []
    rw [List.append_nil] at this
    rw [scan_of_some this, scan_of_none (frames.next_nil)]
  rw [extract_eq_scan, h, hscan]
  rfl

/-- From nothing comes nothing. -/
theorem extract_silence {calls : List Receiver.Call} (h : fedBytes calls = []) :
    extract calls = { results := [], discarded := [], pending := [] } := by
  rw [extract_eq_scan, h, scan_of_none (frames.next_nil)]
  rfl

namespace Bench

variable {steps : List Step} {chunking : ℕ → Bytes → List Receiver.Call}

/-- **The loop invariant**: the session stands before step `n`, nothing is left in the
receiver, and every reply so far was accepted. -/
structure Ready (steps : List Step) (n : ℕ) (b : Bench) : Prop where
  tracks : Tracks steps b.history b.session
  index_eq : b.session.index = n
  awaiting_eq : b.session.awaiting = false
  rx_eq : b.rx = .new
  replies_ok : ∀ i f r, .reply i f r ∈ b.history → r = .ok ()

/-- In front of the first step the invariant of the loop holds. -/
theorem ready_start (steps : List Step) (dev : Device) : Ready steps 0 (start steps dev) where
  tracks := tracks_new steps
  index_eq := rfl
  awaiting_eq := rfl
  rx_eq := rfl
  replies_ok := by simp [start]

/-- One exchange, computed from what the receiver extracts from the wire. -/
theorem exchange_eq {b : Bench} {x : Send} (results : List (Except FrameError Frame))
    (hrx : b.rx = .new)
    (hex : extract (chunking x.index ((b.device.respond x.bytes).1.elim [] Frame.encode)) =
      { results, discarded := [], pending := [] }) :
    b.exchange chunking x =
      let answered := b.session.runCalls (results.filterMap fun r => r.toOption.map Call.onReply)
      { session := answered.2, rx := .new, device := (b.device.respond x.bytes).2,
        history := b.history ++ answered.1 } := by
  simp only [extract, Extraction.mk.injEq, List.append_eq_nil_iff] at hex
  obtain ⟨hres, ⟨-, hdisc⟩, hbuf⟩ := hex
  have hnew : ∀ rx : Receiver, rx.buf = [] → rx.discarded = [] → rx = .new := by
    rintro ⟨buf, discarded⟩ rfl rfl
    rfl
  rw [exchange, hrx, Bench.mk.injEq, ← hres]
  exact ⟨rfl, hnew _ hbuf hdisc, rfl, rfl⟩

/-- Where the device stays silent, the session is left alone. -/
theorem exchange_silence (hchunking : ∀ i wire, fedBytes (chunking i wire) = wire) {b : Bench}
    {x : Send} {dev' : Device} (hrx : b.rx = .new)
    (hr : b.device.respond x.bytes = (none, dev')) :
    b.exchange chunking x = { b with rx := .new, device := dev' } := by
  have hex := extract_silence (hchunking x.index [])
  rw [exchange_eq [] hrx (by simpa [hr] using hex), hr]
  simp [runCalls]

/-- Where the device answers, its reply goes to the session. -/
theorem exchange_reply (hchunking : ∀ i wire, fedBytes (chunking i wire) = wire) {b : Bench}
    {x : Send} {f : Frame} {dev' : Device} (hrx : b.rx = .new)
    (hr : b.device.respond x.bytes = (some f, dev')) (hf : f.LenPlausible) :
    b.exchange chunking x =
      { session := (b.session.onReply f).2, rx := .new, device := dev',
        history := b.history ++ [.reply b.session.index f (b.session.onReply f).1] } := by
  have hex := extract_reply hf (hchunking x.index f.encode)
  rw [exchange_eq [.ok f] hrx (by simpa [hr] using hex), hr]
  rfl

/-- **One request and its answer**: where the device's answer fits the step, the session
moves past it. -/
theorem ready_exchange (hchunking : ∀ i wire, fedBytes (chunking i wire) = wire) {b : Bench}
    {n : ℕ} {step : Step} {reply : Option Frame} {dev' : Device} (hb : Ready steps n b)
    (hstep : steps[n]? = some step)
    (hr : b.device.respond step.frame.encode = (reply, dev')) (hfits : Device.Fits step reply) :
    ∃ b', Ready steps (n + 1) b' ∧ b'.device = dev' ∧
      ∀ fuel, b.run chunking (fuel + 1) = b'.run chunking fuel := by
  obtain ⟨s, rx, device, history⟩ := b
  obtain ⟨t, rfl, ha, rfl, hok⟩ := hb
  simp only at t ha hok hstep hr
  obtain rfl := t.steps_eq
  obtain ⟨hlt, rfl⟩ := List.getElem?_eq_some_iff.mp hstep
  replace hr : device.respond (s.steps[s.index].send s.index).bytes = (reply, dev') := hr
  have ti := t.issue ha hlt
  have hoki : ∀ i f r, Event.reply i f r ∈ history ++
      [.action (.send (s.steps[s.index].send s.index))] → r = .ok () := by
    intro i f r hmem
    rcases List.mem_append.mp hmem with hmem | hmem
    · exact hok i f r hmem
    · simp at hmem
  have hrun : ∀ fuel, Bench.run chunking (fuel + 1) ⟨s, .new, device, history⟩ =
      Bench.run chunking fuel (Bench.exchange chunking (s.steps[s.index].send s.index)
        { session := s.issue hlt, rx := .new, device,
          history := history ++ [.action (.send (s.steps[s.index].send s.index))] }) := by
    intro fuel
    rw [run]
    simp only [nextAction_of_lt ha hlt]
  refine ⟨_, ?_, ?_, hrun⟩
  · cases reply with
    | none =>
        have he : s.steps[s.index].expectReply = false := hfits
        rw [exchange_silence hchunking rfl hr]
        exact ⟨ti, by rw [issue_index, he]; rfl, by rw [issue_awaiting, he], rfl, hoki⟩
    | some f =>
        obtain ⟨hacc, hplaus⟩ := hfits
        obtain ⟨s', hreply, hindex, hawaiting⟩ := onReply_issue hlt hacc
        have tr := ti.onReply f
        rw [exchange_reply hchunking rfl hr hplaus]
        simp only [hreply] at tr ⊢
        refine ⟨tr, hindex, hawaiting, rfl, ?_⟩
        intro i g r hmem
        rcases List.mem_append.mp hmem with hmem | hmem
        · exact hoki i g r hmem
        · cases List.mem_singleton.mp hmem
          rfl
  · cases reply with
    | none => rw [exchange_silence hchunking rfl hr]
    | some f =>
        obtain ⟨-, hplaus⟩ := hfits
        rw [exchange_reply hchunking rfl hr hplaus]

/-- **A device whose answers fit the remaining steps** carries the session to its end. -/
theorem run_of_serves (hchunking : ∀ i wire, fedBytes (chunking i wire) = wire)
    {todo : List Step} {dev dev' : Device} (h : dev.Serves todo dev') {n : ℕ}
    (htodo : steps.drop n = todo) {b : Bench} (hb : Ready steps n b) (hdev : b.device = dev)
    {fuel : ℕ} (hfuel : todo.length < fuel) :
    ∃ b', b.run chunking fuel = some b' ∧ b'.device = dev' ∧
      Tracks steps b'.history b'.session ∧ b'.session.index = steps.length ∧
      b'.session.awaiting = false ∧ b'.history.getLast? = some (.action .finished) ∧
      ∀ i f r, .reply i f r ∈ b'.history → r = .ok () := by
  induction h generalizing n b fuel with
  | @nil dev =>
      obtain ⟨fuel, rfl⟩ : ∃ k, fuel = k + 1 := ⟨fuel - 1, by omega⟩
      have hn : b.session.index = steps.length := by
        have := List.drop_eq_nil_iff.mp htodo
        have := hb.tracks.index_le
        have := hb.index_eq
        omega
      have hnext : b.session.nextAction = (.finished, b.session) :=
        nextAction_of_le hb.awaiting_eq (by rw [hb.tracks.steps_eq, hn])
      have hrun : b.run chunking (fuel + 1) =
          some { b with history := b.history ++ [.action .finished] } := by
        rw [run]
        simp only [hnext]
      have t : Tracks steps (b.history ++ [.action .finished]) b.session :=
        hb.tracks.append_action (by simp)
      refine ⟨_, hrun, hdev, t, hn, hb.awaiting_eq, List.getLast?_concat, ?_⟩
      intro i f r hmem
      rcases List.mem_append.mp hmem with hmem | hmem
      · exact hb.replies_ok i f r hmem
      · simp at hmem
  | @cons dev dev₁ dev₂ step todo reply hr hfits _ ih =>
      obtain ⟨fuel, rfl⟩ : ∃ k, fuel = k + 1 := ⟨fuel - 1, by omega⟩
      have hstep : steps[n]? = some step := by
        rw [← Nat.add_zero n, ← List.getElem?_drop, htodo]
        rfl
      obtain ⟨b', hb', hdev', hrun⟩ := ready_exchange hchunking hb hstep (hdev ▸ hr) hfits
      rw [hrun]
      refine ih ?_ hb' hdev' (by simpa using hfuel)
      rw [← List.tail_drop, htodo]
      rfl

end Bench

/-! ### The device against a flash plan -/

/-- The block ack is the sum of the bytes, modulo 256. -/
theorem blockAck_eq (data : Bytes) : blockAck data = sumMod256 data :=
  foldl_wrapping_add data

/-- What a status frame that parses tells about the lengths of its fields. -/
theorem lengths_of_parseStatus {status : Frame} {baud : UInt32} {info : TargetInfo}
    (h : parseStatus status baud = .ok info) :
    info.chipId.length = 2 ∧ info.optionBytes.length = 1 := by
  obtain ⟨_, _, -, -, hchip⟩ := (readOff_of_parseStatus h).chipId
  obtain ⟨_, -, hoption⟩ := (readOff_of_parseStatus h).optionBytes
  rw [hchip, hoption]
  exact ⟨rfl, rfl⟩

namespace Device

/-- Echoed requests. -/
theorem serves_echo (dev : Device) {step : Step} (hdir : step.frame.dir = .hostToMcu)
    (hcmd : step.frame.cmd = cmdBaudProbe ∨ step.frame.cmd = cmdBaudCommit ∨
      step.frame.cmd = cmdOptions)
    (he : step.expect = .echo) (hlen : step.frame.payload.length ≤ 1018) :
    dev.Serves [step] dev := by
  refine .single (some (.mcu step.frame.cmd step.frame.payload)) ?_ ⟨?_, ?_⟩
  · rw [respond_encode dev hdir, obey, if_pos hcmd]
  · simp [Step.Accepts, he, Frame.isEchoOf, Frame.mcu, hdir]
  · simp only [Frame.LenPlausible, Frame.wireLen, Frame.mcu, frameOverhead]
    omega

/-- Link tests. -/
theorem serves_linkTest (dev : Device) (info : TargetInfo) (opts : SessionOptions) (i : ℕ) :
    dev.Serves [linkTestStep info opts i] dev := by
  refine .single (some (.mcu 0x80 [])) ?_ ⟨⟨rfl, rfl, rfl⟩, by decide⟩
  rw [respond_encode dev rfl]
  rfl

/-- Any number of link tests is answered, and nothing about the device changes. -/
theorem serves_linkTests (dev : Device) (info : TargetInfo) (opts : SessionOptions) (is : List ℕ) :
    dev.Serves (is.map (linkTestStep info opts)) dev := by
  induction is with
  | nil => exact .nil
  | cons i is ih => exact (dev.serves_linkTest info opts i).append ih

/-- The erase command sets the erased region to `0xFF`. -/
theorem serves_erase (dev : Device) {blocks : ℕ} (opts : SessionOptions) (hblocks : blocks ≤ 0xFF) :
    dev.Serves [eraseStep blocks opts]
      (dev.withFlash (overwrite dev.flash 0 (List.replicate (blocks * eraseBlock) 0xFF))) := by
  have hn : (UInt8.ofNat blocks).toNat = blocks := by
    rw [UInt8.toNat_ofNat']
    omega
  refine .single (some (.mcu 0x80 dev.eraseReply)) ?_ ⟨⟨rfl, rfl, ?_⟩, ?_⟩
  · rw [respond_encode dev rfl]
    show (_, dev.withFlash (overwrite dev.flash 0
      (List.replicate ((UInt8.ofNat blocks).toNat * 256) 0xFF))) = _
    rw [hn]
    rfl
  · exact dev.length_eraseReply
  · simp [Frame.LenPlausible, Frame.wireLen, Frame.mcu, frameOverhead, dev.length_eraseReply]

/-- A write command stores its block, and is acknowledged with the block's sum. -/
theorem serves_write (dev : Device) (opts : SessionOptions) (total : ℕ) {i : ℕ} {chunk : Bytes}
    (hi : i * writeBlock < 2 ^ 32) (hlen : chunk.length = writeBlock) :
    dev.Serves [writeStep opts total i chunk]
      (dev.withFlash (overwrite dev.flash (i * writeBlock) chunk)) := by
  have haddr : (UInt32.ofNat (i * writeBlock)).toNat = i * writeBlock := by
    rw [UInt32.toNat_ofNat', Nat.mod_eq_of_lt hi]
  have hcount : (UInt16.ofNat chunk.length).toNat = chunk.length := by
    rw [hlen]
    rfl
  refine .single (some (.mcu 0x80 [sumMod256 chunk])) ?_ ⟨⟨rfl, rfl, ?_⟩, ?_⟩
  · rw [respond_encode dev rfl]
    show (some (Frame.mcu 0x80 [sumMod256 (chunk.take (u16FromBeBytes _ _).toNat)]),
      dev.withFlash (overwrite dev.flash (u32FromBeBytes _ _ _ _).toNat
        (chunk.take (u16FromBeBytes _ _).toNat))) = _
    rw [u16FromBeBytes_toBeBytes, u32FromBeBytes_split, haddr, hcount, List.take_length]
  · show [sumMod256 chunk] = [blockAck chunk]
    rw [blockAck_eq]
  · simp [Frame.LenPlausible, Frame.wireLen, Frame.mcu, frameOverhead]

/-- **The write steps store the padded image**, block by block. -/
theorem serves_writes (dev : Device) (image : Bytes) {blocks : ℕ} (opts : SessionOptions)
    (hblocks : blocks ≤ 0xFF) :
    dev.Serves (writeSteps image blocks opts)
      (dev.withFlash (overwrite dev.flash 0 (padded image blocks))) := by
  have hlen : (padded image blocks).length = 2 * blocks * writeBlock := by
    rw [length_padded]
    simp only [eraseBlock, writeBlock]
    omega
  have hsteps : ∀ k ≤ 2 * blocks,
      dev.Serves ((List.range k).map fun i =>
          writeStep opts (2 * blocks) i (block image blocks i))
        (dev.withFlash ((List.range k).foldl (fun m i =>
          overwrite m (i * writeBlock) (block image blocks i)) dev.flash)) := by
    intro k
    induction k with
    | zero => exact fun _ => .nil
    | succ k ih =>
        intro hk
        rw [List.range_succ, List.map_append, List.foldl_append]
        refine (ih (by omega)).append ?_
        refine serves_write _ opts _ ?_ (length_block (by omega))
        simp only [writeBlock]
        omega
  have hall := hsteps (2 * blocks) (Nat.le_refl _)
  rw [writeSteps_eq]
  rwa [show (fun m i => overwrite m (i * writeBlock) (block image blocks i)) = fun m i =>
      overwrite m (i * writeBlock) (((padded image blocks).drop (i * writeBlock)).take writeBlock)
      from rfl, overwrite_pieces _ _ _ _ (by rw [hlen]), ← hlen, List.take_length] at hall

/-- The run command is not answered. -/
theorem serves_run (dev : Device) (opts : SessionOptions) : dev.Serves [runStep opts] dev := by
  refine .single none ?_ rfl
  rw [respond_encode dev rfl]
  rfl

/-- **The device's answers fit every step of a flash plan**, and the plan stores the padded
image. -/
theorem serves_plan (dev : Device) {status : Frame} {baud : UInt32} {info : TargetInfo}
    {image : Bytes} {writeOptions : Bool} {opts : SessionOptions} {steps : List Step}
    (hstatus : parseStatus status baud = .ok info)
    (hplan : plan info (.flash image writeOptions) opts = .ok steps) :
    dev.Serves steps (dev.withFlash
      (overwrite dev.flash 0 (padded image (eraseBlocksFor image.length)))) := by
  obtain ⟨reload, -, hblocks, rfl⟩ := plan_flash hplan
  obtain ⟨-, hoption⟩ := lengths_of_parseStatus hstatus
  have hflash : ∀ m : ℕ → UInt8, overwrite
      (overwrite m 0 (List.replicate (eraseBlocksFor image.length * eraseBlock) 0xFF)) 0
        (padded image (eraseBlocksFor image.length)) =
      overwrite m 0 (padded image (eraseBlocksFor image.length)) := fun m =>
    overwrite_hidden m 0 (by rw [length_padded, List.length_replicate])
  have hprobe : dev.Serves [baudProbeStep reload opts] dev :=
    serves_echo dev rfl (.inl rfl) rfl (Nat.le_of_ble_eq_true rfl)
  have hcommit : dev.Serves [baudCommitStep reload opts] dev :=
    serves_echo dev rfl (.inr (.inl rfl)) rfl (Nat.le_of_ble_eq_true rfl)
  have herase := dev.serves_erase opts hblocks
  have hwrites := (dev.withFlash (overwrite dev.flash 0
    (List.replicate (eraseBlocksFor image.length * eraseBlock) 0xFF))).serves_writes image opts
      hblocks
  rw [withFlash_flash, withFlash_withFlash, hflash] at hwrites
  have hoptions : ∀ dev' : Device,
      dev'.Serves (if writeOptions then [optionsStep info opts] else []) dev' := by
    intro dev'
    cases writeOptions with
    | false => exact .nil
    | true =>
        refine serves_echo dev' rfl (.inr (.inr rfl)) rfl ?_
        show (info.optionBytes ++ optionsTail).length ≤ 1018
        rw [List.length_append, hoption]
        decide
  exact hprobe.append (hcommit.append
    ((dev.serves_linkTests info opts (List.range linkTestRepeats)).append
      (herase.append ((hwrites.append (hoptions _)).append (serves_run _ opts)))))

end Device

/-- **Flashing is correct.** Take a target whose status frame parses, an image and options
for which a flash is planned, and a device. Whatever the chunking of the replies, every reply
is accepted, the session finishes after exactly one request for each step and does not report
the flash as indeterminate; the flash then holds the image, `0xFF` on the rest of the erased
region, and what it held before behind it. -/
theorem closed_loop_flash {status : Frame} {baud : UInt32} {info : TargetInfo} {image : Bytes}
    {writeOptions : Bool} {opts : SessionOptions} {steps : List Step}
    (hstatus : parseStatus status baud = .ok info)
    (hplan : plan info (.flash image writeOptions) opts = .ok steps) (dev : Device)
    (chunking : ℕ → Bytes → List Receiver.Call)
    (hchunking : ∀ i wire, fedBytes (chunking i wire) = wire)
    (fuel : ℕ) (hfuel : steps.length < fuel) :
    ∃ b, (Bench.start steps dev).run chunking fuel = some b ∧
      (∀ i f r, .reply i f r ∈ b.history → r = .ok ()) ∧
      b.history.getLast? = some (.action .finished) ∧ b.session.isFinished = true ∧
      sends b.history = steps.mapIdx Step.send ∧
      b.session.flashIsIndeterminate = false ∧
      ∀ a, b.device.flash a =
        if h : a < image.length then image[a]
        else if a < eraseBlocksFor image.length * eraseBlock then 0xFF
        else dev.flash a := by
  have hserves := dev.serves_plan hstatus hplan
  obtain ⟨b, hrun, hdev, t, hindex, hawaiting, hlast, hok⟩ :=
    Bench.run_of_serves hchunking hserves rfl (Bench.ready_start steps dev) rfl hfuel
  refine ⟨b, hrun, hok, hlast, ?_, ?_, ?_, ?_⟩
  · simp [Session.isFinished, hindex, hawaiting, t.steps_eq]
  · rw [t.sends_eq, issued, hawaiting, hindex]
    simp
  · exact t.flashIsIndeterminate_of_finished hindex hawaiting
  · intro a
    have hle := length_le_region image.length
    have hpadded := padded_eq hle
    rw [hdev, Device.withFlash_flash]
    split_ifs with himage hregion
    · rw [overwrite_zero_of_lt (by rw [length_padded]; omega)]
      simp [hpadded, List.getElem_append_left himage]
    · rw [overwrite_zero_of_lt (by rw [length_padded]; exact hregion)]
      simp [hpadded, List.getElem_append_right (Nat.le_of_not_lt himage)]
    · exact overwrite_of_le (by rw [length_padded]; omega)

/-- The captured target, with an erase reply as captured and `0xA5` all over its flash. -/
def benchDevice : Device where
  chipId := [0xF0, 0x02]
  eraseReply := [0xF0, 0x02, 0xC4, 0x2B, 0x01, 0x83, 0x74]
  flash := fun _ => 0xA5
  length_eraseReply := rfl
  chipId_prefix := ⟨_, rfl⟩

/-- `closed_loop_flash` for a three-byte image on the captured target, every reply cut behind
its third byte. -/
theorem closed_loop_flash_bench :
    ∃ steps b, plan benchTarget (.flash [0x02, 0x00, 0x4C] true) .default = .ok steps ∧
      (Bench.start steps benchDevice).run
        (fun _ wire => [.feed (wire.take 3), .nextFrame, .feed (wire.drop 3), .takeDiscarded])
        (steps.length + 1) = some b ∧
      b.device.flash 2 = 0x4C ∧ b.device.flash 511 = 0xFF ∧ b.device.flash 512 = 0xA5 := by
  obtain ⟨steps, hplan⟩ :
      ∃ steps, plan benchTarget (.flash [0x02, 0x00, 0x4C] true) .default = .ok steps :=
    ⟨_, rfl⟩
  obtain ⟨b, hrun, -, -, -, -, -, hflash⟩ :=
    closed_loop_flash parseStatus_benchStatus hplan benchDevice
      (fun _ wire => [.feed (wire.take 3), .nextFrame, .feed (wire.drop 3), .takeDiscarded])
      (by intro _ wire; simp [fedBytes, Receiver.Call.fed]) _ (Nat.lt_succ_self _)
  refine ⟨steps, b, hplan, hrun, ?_, ?_, ?_⟩ <;> rw [hflash] <;> rfl

end Stcbsl
