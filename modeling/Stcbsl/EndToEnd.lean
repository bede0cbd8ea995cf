import Stcbsl.BlockIntegrity
import Stcbsl.HexImage
import Stcbsl.Interruption
import Stcbsl.NoiseTransparency

/-!
# End to End

The whole program with a device at the other end of the line: from the text of the file to the
content of the flash. The device sends its status packet, and answers what is written to it as
`Device.respond` says; whatever it has to say reaches the host.

## The line

A `Line` puts noise in front of the status packet and of each answer, of any length and content
but for the pair of preamble bytes `46 B9` (`PreambleFree`). The pair is left out because the
receiver takes it for the start of a frame: `46 B9 68 04 00` in front of an answer makes it wait
for bytes that never come, so that an answer is lost and the session ends with a timeout. The
line then cuts noise and answer into pieces in any way, empty ones among them, and a read brings
one piece; a piece is no longer than what a read can bring, or there is no run with such a line.

`Attached` says of each event of a run that it is as with such a line: no call on the wire fails,
the reads bring the pieces one after the other, and the clock stays before the deadline, that of
the handshake or that of the request in hand. It is a guard of the events, so that nothing has to
be said about a world beyond the run it takes part in. `Line.Lasts` asks for as much fuel as
there are reads to make.

## The proof

The handshake reads the pieces until the status packet is whole, and a plan is made for its
target. The device serves the plan (`Device.serves_plan`), so its answers fit the steps, and
noise of this kind changes nothing about what the session hears (`NoiseTransparency`). The bytes
written are then the requests of the plan, and the flash behind them is the padded image.

## Main results

* `handshake_attached` — the handshake finds the status packet.
* `run_attached` — the run takes every answer for what it is, and ends with `Ok`.
* `main_flashes` — the flash holds what the records of the file say.
-/

namespace Stcbsl

open Traced Resync Session Stc89 Overwrite Driver

/-! ### The line -/

/-- What the line does with what the device sends: the pieces in which the status packet comes,
and for every request the noise in front of the answer and the way the two are cut. No noise
holds a pair of preamble bytes. -/
structure Line where
  status : Frame
  boot : List Bytes
  hum : Bytes
  noise : ℕ → Bytes
  cut : ℕ → Bytes → List Bytes
  isStatus : isStatusFrame status = true
  lenPlausible : status.LenPlausible
  boot_eq : boot.flatten = hum ++ status.encode
  hum_free : PreambleFree hum
  noise_free : ∀ i, PreambleFree (noise i)
  cut_eq : ∀ i b, (cut i b).flatten = b

/-- The answer of the device to the last string written to it. -/
def Device.answer (dev : Device) (h : List Driver.Event) : Bytes :=
  (((dev.receive (written h).dropLast).respond ((written h).getLastD [])).1).elim []
    Frame.encode

/-- **The device is at the other end of the line**: no call on the wire fails; a read brings the
next piece of the status packet, and after a request the next piece of the answer, or nothing
behind the last of them; the clock stays before the deadline, of the handshake or of the reply. -/
def Attached (dev : Device) (line : Line) (wait : ℕ) (h : List Driver.Event) :
    Driver.Event → Prop
  | .wire _ result => result = .ok ()
  | .read result =>
      (lastRequest h = none → result = .ok (line.boot.getD (h.countP Event.isRead) [])) ∧
      ∀ p ∈ lastRequest h, result =
        .ok ((line.cut p.1.index (line.noise p.1.index ++ dev.answer h)).getD (readsSince h) [])
  | .now t =>
      (lastRequest h = none → ∀ t₀ ∈ startedAt h, t - t₀ < wait) ∧
      ∀ p ∈ lastRequest h, ∀ t₀ ∈ waitingSince h, t < t₀ + p.1.timeoutMs.toNat * 1000000
  | _ => True

instance (dev : Device) (line : Line) (wait : ℕ) (h : List Driver.Event) :
    DecidablePred (Attached dev line wait h)
  | .wire _ result => inferInstanceAs (Decidable (result = .ok ()))
  | .read result => inferInstanceAs (Decidable ((lastRequest h = none →
      result = .ok (line.boot.getD (h.countP Event.isRead) [])) ∧ ∀ p ∈ lastRequest h,
        result = .ok ((line.cut p.1.index (line.noise p.1.index ++ dev.answer h)).getD
          (readsSince h) [])))
  | .now t => inferInstanceAs (Decidable ((lastRequest h = none →
      ∀ t₀ ∈ startedAt h, t - t₀ < wait) ∧ ∀ p ∈ lastRequest h, ∀ t₀ ∈ waitingSince h,
        t < t₀ + p.1.timeoutMs.toNat * 1000000))
  | .sleep _ | .log _ | .session _ _ => inferInstanceAs (Decidable True)

variable {dev : Device} {line : Line} {wait : ℕ}

/-! ### The answers of a device to a plan -/

/-- The answer of the device to the step at a position, behind the requests before it. -/
def Device.replyAt (dev : Device) (steps : List Step) (i : ℕ) : Option Frame :=
  ((dev.receive (requests (steps.take i))).respond ((requests steps).getD i [])).1

/-- The answers of a device that serves the steps fit them. -/
theorem Device.Serves.replyAt {dev dev' : Device} {steps : List Step} (h : dev.Serves steps dev')
    {i : ℕ} {step : Step} (hstep : steps[i]? = some step) :
    Fits step (dev.replyAt steps i) := by
  induction h generalizing i with
  | nil => cases hstep
  | @cons dev dev₁ dev₂ first steps reply hr hfits _ ih =>
      cases i with
      | zero =>
          cases hstep
          show Fits step (dev.respond step.frame.encode).1
          rwa [hr]
      | succ i =>
          have hnext : dev.replyAt (first :: steps) (i + 1) = dev₁.replyAt steps i := by
            show (((dev.respond first.frame.encode).2.receive (requests (steps.take i))).respond
              ((requests steps).getD i [])).1 = _
            rw [hr]
            rfl
          rw [hnext]
          exact ih hstep

/-- **A session whose replies fit comes to its end.** The induction is on the steps that are
left. -/
theorem converses_of_accepts {drain : DrainConfig} {reply : ℕ → Frame} {s : Session}
    (ha : s.awaiting = false)
    (haccepts : ∀ (i : ℕ) (step : Step), s.steps[i]? = some step → step.expectReply = true →
      step.Accepts (reply i)) :
    ∃ s' calls, Converses drain reply s (.ok s') calls := by
  induction hn : s.steps.length - s.index generalizing s with
  | zero => exact ⟨s, [], .finished (by omega)⟩
  | succ n ih =>
      have hlt : s.index < s.steps.length := by omega
      have hturn : ∃ s', Turn reply s hlt s' := by
        by_cases he : s.steps[s.index].expectReply = true
        · have hacc := haccepts s.index _ (List.getElem?_eq_getElem hlt) he
          obtain ⟨s', hs', -, -⟩ := Session.onReply_issue hlt hacc
          exact ⟨s', .answered he hs'⟩
        · exact ⟨_, .silent (by simpa using he)⟩
      obtain ⟨s', ht⟩ := hturn
      obtain ⟨hindex, hsteps, ha'⟩ := ht.next
      obtain ⟨s'', calls, c⟩ := ih ha' (by rwa [hsteps]) (by rw [hsteps]; omega)
      exact ⟨s'', _, .turn hlt ht c⟩

/-! ### The handshake -/

/-- Pieces of the status packet, as many as there were reads. -/
theorem readBytes_attached {t : List Driver.Event} (hnone : ∀ e ∈ t, e.isRequest = false)
    (hg : GuardsFrom (Attached dev line wait) [] t) :
    readBytes t = (line.boot.take (t.countP Event.isRead)).flatten := by
  induction t using List.reverseRecOn with
  | nil => rfl
  | append_singleton t e ih =>
      obtain ⟨hbefore, he⟩ := guardsFrom_concat.mp hg
      have hlast : lastRequest t = none := by
        have hall : t.filterMap Event.request = [] := by
          refine List.filterMap_eq_nil_iff.mpr fun e' he' => ?_
          simpa [Event.isRequest] using hnone e' (List.mem_append_left _ he')
        rw [lastRequest, hall]
        rfl
      have hbytes := ih (fun e' he' => hnone e' (List.mem_append_left _ he')) hbefore
      rw [readBytes_append, hbytes, List.countP_append]
      cases e with
      | read result =>
          obtain rfl := he.1 hlast
          rw [List.countP_singleton, if_pos (show Event.isRead (.read _) = true from rfl),
            List.take_add_one, List.flatten_append, List.getD_eq_getElem?_getD]
          cases line.boot[t.countP Event.isRead]? <;> simp [readBytes, Event.bytesRead]
      | _ => exact List.append_nil _

/-- Before the first request, with so many reads so far. -/
def HandshakeReads (started k : ℕ) (h : List Driver.Event) : Prop :=
  startedAt h = some started ∧ lastRequest h = none ∧ h.countP Event.isRead = k

/-- Where a handshake fails on the line: something happened that the line does not do, or the
status packet does not parse, or the fuel was used up by reads. -/
def FailsOnLine (dev : Device) (line : Line) (wait fuel : ℕ) (halt : Halt)
    (h : List Driver.Event) : Prop :=
  ¬ GuardsFrom (Attached dev line wait) [] h ∨ (∃ e, halt = .error (.protocol e)) ∨
    (halt = .outOfFuel ∧ fuel ≤ h.countP Event.isRead)

/-- An event that neither asks nor reads leaves the number of reads. -/
theorem HandshakeReads.concat {started k : ℕ} {h : List Driver.Event} {e : Driver.Event}
    (hg : HandshakeReads started k h) (hreq : e.request = none) (hread : e.isRead = false) :
    HandshakeReads started k (h ++ [e]) := by
  obtain ⟨hs, hl, hk⟩ := hg
  refine ⟨startedAt_append hs _, (lastRequest_concat hreq).trans hl, ?_⟩
  · rw [List.countP_append, hk, List.countP_singleton, if_neg (by rw [hread]; decide), Nat.add_zero]

/-- An event that the line does not bring about ends the comparison with it. -/
theorem failsOnLine_of_not {fuel : ℕ} {halt : Halt} {h : List Driver.Event} {e : Driver.Event}
    (he : ¬ Attached dev line wait h e) : FailsOnLine dev line wait fuel halt (h ++ [e]) :=
  .inl fun hg => he (guardsFrom_concat.mp hg).2

/-- The reads so far and the fuel that is left are as many as before. -/
theorem HandshakeReads.exists_concat {started fuel total : ℕ} {h : List Driver.Event}
    {e : Driver.Event}
    (hreq : e.request = none) (hread : e.isRead = false)
    (hg : ∃ k, HandshakeReads started k h ∧ k + fuel = total) :
    ∃ k, HandshakeReads started k (h ++ [e]) ∧ k + fuel = total := by
  obtain ⟨k, hg, hk⟩ := hg
  exact ⟨k, hg.concat hreq hread, hk⟩

/-- **The loop on the line**: every read uses up fuel, of which there is `total` and no more. -/
theorem pulseRule_attached (opts : SessionOptions) (started total : ℕ) :
    PulseRule family opts wait started
      (fun fuel _ _ h => ∃ k, HandshakeReads started k h ∧ k + fuel = total)
      (fun fuel _ _ h => ∃ k, HandshakeReads started k h ∧ k + (fuel + 1) = total)
      (fun fuel _ _ h => ∃ k, HandshakeReads started k h ∧ k + fuel = total)
      (fun fuel _ _ h => ∃ k, HandshakeReads started k h ∧ k + fuel = total)
      (fun _ _ => True) (FailsOnLine dev line wait total) where
  spent hg := by
    obtain ⟨k, ⟨-, -, hk⟩, rfl⟩ := hg
    exact .inr (.inr ⟨rfl, hk.ge⟩)
  givesUp {fuel rx noise h t} hg hover := by
    obtain ⟨k, ⟨hs, hl, -⟩, -⟩ := hg
    refine failsOnLine_of_not fun hin => ?_
    have := hin.1 hl started hs
    simp only [elapsed] at hover
    omega
  waiting hg _ := HandshakeReads.exists_concat rfl rfl hg
  tick _ hg := HandshakeReads.exists_concat rfl rfl hg
  pulsed _ hg := HandshakeReads.exists_concat rfl rfl hg
  broken io _ _ := failsOnLine_of_not fun hbad => by cases hbad
  read {fuel rx noise h bytes} hg _ := by
    obtain ⟨k, ⟨hs, hl, hk⟩, htotal⟩ := hg
    refine ⟨k + 1, ⟨startedAt_append hs _, (lastRequest_concat rfl).trans hl, ?_⟩, by omega⟩
    rw [List.countP_append, hk]
    rfl
  fails {fuel rx noise h} io hg := by
    obtain ⟨k, ⟨-, hl, -⟩, -⟩ := hg
    exact failsOnLine_of_not fun hbad => by cases hbad.1 hl
  received _ hg := HandshakeReads.exists_concat rfl rfl hg
  sifted := contract_sifted (fun _ _ hg => HandshakeReads.exists_concat rfl rfl hg)
    (fun _ _ _ hg => hg) (fun _ _ _ => trivial) fun e _ _ => .inr (.inl ⟨e, rfl⟩)
  drained {fuel rx noise h} hg :=
    logged_of_log (P := fun h => ∃ k, HandshakeReads started k h ∧ k + fuel = total)
      (fun _ _ hg => HandshakeReads.exists_concat rfl rfl hg) hg _

/-- The status packet behind its noise is the first there is. -/
theorem firstStatus_boot (line : Line) :
    firstStatus family line.boot.flatten = some line.status := by
  have hscan := scan_noise_frame line.hum_free line.lenPlausible []
  rw [List.append_nil, scan_of_none frames.next_nil] at hscan
  have hreads := (reads_scan frames (line.hum ++ line.status.encode)).1
  rw [hscan] at hreads
  rw [line.boot_eq]
  refine firstStatus_of_reads hreads ?_
  have hframes : framesOf (line.hum.map Item.skipped ++
      [.accepted line.status.encode line.status]) = [line.status] := by
    rw [framesOf_append, framesOf, output_skipped_bytes]
    rfl
  rw [hframes, List.find?_singleton]
  exact if_pos line.isStatus

/-- What has come first stays first. -/
theorem firstStatus_append {stream : Bytes} {f : Frame} (h : firstStatus family stream = some f)
    (more : Bytes) : firstStatus family (stream ++ more) = some f := by
  obtain ⟨hreads, hstuck⟩ := reads_scan frames stream
  refine firstStatus_of_reads (hreads.append more) ?_
  rwa [firstStatus, (delivered_of_stuck hreads hstuck).1] at h

/-- A paced history hands out no request. -/
theorem noRequest_of_paced {opts : SessionOptions} {t : List Driver.Event}
    (hg : GuardsFrom (Paced opts) [] t) : ∀ e ∈ t, e.isRequest = false := by
  intro e he
  have hnone := onSession_of_paced hg e he
  cases e with
  | session e held => cases hnone
  | _ => rfl

/-- **The handshake finds the status packet** of a device at the other end of the line. -/
theorem handshake_attached {w : World} {opts : SessionOptions} {fuel : ℕ} {info : TargetInfo}
    (hstatus : parseStatus line.status opts.handshakeBaud = .ok info)
    (hfuel : line.boot.length ≤ fuel)
    (hg : GuardsFrom (Attached dev line wait) [] (handshake w family opts wait fuel []).2) :
    (handshake w family opts wait fuel []).1 = .ok info := by
  have hcontract : Contract (fun h => h = []) (handshake w family opts wait fuel)
      (fun _ _ => True) (FailsOnLine dev line wait fuel) := by
    refine contract_handshake
      (H := fun started h => ∃ k, HandshakeReads started k h ∧ k + fuel = fuel)
      ?_ ?_ fun started => (pulseRule_attached opts started fuel).contract w fuel .new 0 _ _
    · exact fun _ io _ => failsOnLine_of_not fun hbad => by cases hbad
    · rintro _ started rfl
      exact ⟨0, ⟨rfl, rfl, rfl⟩, Nat.zero_add fuel⟩
  have hends := handshake_endsOn w family opts wait fuel
  have hbytes := readBytes_attached (noRequest_of_paced (handshake_guards w family opts wait fuel))
    hg
  have hmono : ∀ {f : Frame}, firstStatus family
      (readBytes (handshake w family opts wait fuel []).2) = some f → f = line.status := by
    intro f hf
    have hall := firstStatus_append hf
      (line.boot.drop ((handshake w family opts wait fuel []).2.countP Event.isRead)).flatten
    rw [hbytes, ← List.flatten_append, List.take_append_drop, firstStatus_boot] at hall
    exact (Option.some.inj hall).symm
  cases hr : (handshake w family opts wait fuel []).1 with
  | ok info' =>
      rw [hr] at hends
      obtain ⟨f, hf, hparse⟩ := hends
      rw [hmono hf] at hparse
      cases hparse.symm.trans hstatus
      rfl
  | error halt =>
      exfalso
      rw [hr] at hends
      obtain hbad | ⟨e, rfl⟩ | ⟨rfl, hreads⟩ :=
        hcontract.ends rfl (show _ = (Except.error halt, _) from Prod.ext hr rfl)
      · exact hbad hg
      · obtain ⟨f, hf, hparse⟩ := hends
        rw [hmono hf] at hparse
        cases hparse.symm.trans hstatus
      · rw [List.nil_append] at hreads
        have hnone : firstStatus family _ = none := hends
        rw [hbytes, List.take_of_length_le (hfuel.trans hreads), firstStatus_boot] at hnone
        cases hnone

/-! ### The run -/

/-- While a run listens, it has handed out a request that expects a reply, and written it and
those before it. -/
def Listening (steps : List Step) (h : List Driver.Event) (e : Driver.Event) : Prop :=
  e.isRead = true ∨ e.clock.isSome = true → ∃ p step, lastRequest h = some p ∧
    steps[p.1.index]? = some step ∧ step.expectReply = true ∧
    written h = requests (steps.take (p.1.index + 1))

/-- **While a run listens**, the requests handed out so far have been written. -/
theorem guarded_listening (steps : List Step) (drain : DrainConfig) :
    Guarded (.new steps) drain (Listening steps) where
  sends := by
    intro s rx h c hlt
    refine guardsFrom_of_forall fun h' e he => ?_
    have hdeaf : e.isRead = false ∧ e.clock = none := by
      rcases List.mem_cons.mp he with rfl | he
      · exact ⟨rfl, rfl⟩
      · exact ⟨(script_deaf drain (request s hlt) e he).2, (script_deaf drain _ e he).1⟩
    rintro (hbad | hbad)
    · rw [hdeaf.1] at hbad
      cases hbad
    · rw [hdeaf.2] at hbad
      cases hbad
  fails := fun _ hbad => by rcases hbad with hbad | hbad <;> cases hbad
  quiet := by
    intro s rx h c hlt he t hq pre e post ht _
    obtain ⟨tr, -⟩ := c.tracks
    obtain rfl := tr.steps_eq
    have hpre : Quiet pre := fun e' he' => hq e' (by rw [ht]; exact List.mem_append_left _ he')
    have hsilent : sessionHistory (script drain (request s hlt) ++ pre) = [] := by
      rw [sessionHistory_append, (script_readings drain _).1, hpre.sessionHistory]
      rfl
    refine ⟨(request s hlt, rx.buf), s.steps[s.index], ?_, List.getElem?_eq_getElem hlt, he, ?_⟩
    · rw [List.append_assoc, List.cons_append]
      exact lastRequest_asked hlt rx h hsilent
    · rw [List.append_assoc, written_append, written_append, c.writes.2, written_asked,
        hpre.written, List.append_nil]
      exact (requests_take_succ hlt).symm
  reply := fun _ _ _ _ _ _ _ hbad => by rcases hbad with hbad | hbad <;> cases hbad
  finished := fun _ hbad => by rcases hbad with hbad | hbad <;> cases hbad

/-- A reply for the steps that expect none. -/
def filler : Frame := .mcu 0 []

/-- The answer that belongs to a step. -/
def Device.replyOf (dev : Device) (steps : List Step) (i : ℕ) : Frame :=
  (dev.replyAt steps i).getD filler

/-- The pieces that belong to a step. -/
def Line.chunks (line : Line) (dev : Device) (steps : List Step) (i : ℕ) : List Bytes :=
  match dev.replyAt steps i with
  | some f => line.cut i (line.noise i ++ f.encode)
  | none => [line.noise i ++ filler.encode]

/-- The pieces of an answer are the noise and the answer. -/
theorem Line.flatten_chunks (line : Line) (dev : Device) (steps : List Step) (i : ℕ) :
    (line.chunks dev steps i).flatten = line.noise i ++ (dev.replyOf steps i).encode := by
  rw [Line.chunks, Device.replyOf]
  cases dev.replyAt steps i with
  | some f => exact line.cut_eq i _
  | none => exact List.append_nil _

/-- The device behind the pulses of a handshake. -/
theorem receive_written_pulses {t : List Driver.Event} {k : ℕ}
    (ht : writeCalls t = List.replicate k [syncByte]) (dev : Device) :
    dev.receive (written t) = dev := by
  refine Device.receive_of_ignored (fun b hb => ?_) dev
  have hcall := (written_sublist t).subset hb
  rw [ht] at hcall
  rw [List.eq_of_mem_replicate hcall]
  exact ignored_of_lt (by decide)

section Run

variable {steps : List Step} {dev' : Device} {t₁ t₂ pre : List Driver.Event} {k : ℕ}
  {p : Send × Bytes} {step : Step}

/-- Where the later part of a run has a request, its last one is the last of the whole. -/
theorem lastRequest_append (hlast : lastRequest pre = some p) :
    lastRequest (t₁ ++ pre) = some p := by
  rw [lastRequest] at hlast ⊢
  rw [List.filterMap_append, List.getLast?_append, hlast]
  rfl

/-- What has happened before a part with a request is not among the events since the last one. -/
theorem since_request_append (hlast : lastRequest pre = some p) :
    since Event.isRequest (t₁ ++ pre) = since Event.isRequest pre := by
  refine since_append_of_any (List.any_eq_true.mpr ?_)
  obtain ⟨e, he, hep⟩ := List.mem_filterMap.mp (List.mem_of_getLast? hlast)
  exact ⟨e, he, by rw [Event.isRequest, hep]; rfl⟩

/-- While the run listens, what the device answers is what it answers to the plan. -/
theorem answer_of_listening (hpulses : writeCalls t₁ = List.replicate k [syncByte])
    (hserves : dev.Serves steps dev') (hstep : steps[p.1.index]? = some step)
    (he : step.expectReply = true)
    (hwritten : written pre = requests (steps.take (p.1.index + 1))) :
    line.cut p.1.index (line.noise p.1.index ++ dev.answer (t₁ ++ pre)) =
      line.chunks dev steps p.1.index := by
  obtain ⟨hlt, hget⟩ := List.getElem?_eq_some_iff.mp hstep
  have hall : written (t₁ ++ pre) =
      (written t₁ ++ requests (steps.take p.1.index)) ++ [step.frame.encode] := by
    rw [written_append, hwritten, requests_take_succ hlt, hget, List.append_assoc]
  have hrequest : (requests steps).getD p.1.index [] = step.frame.encode := by
    rw [List.getD_eq_getElem?_getD, requests, List.getElem?_map, hstep]
    rfl
  have hanswer : dev.answer (t₁ ++ pre) = (dev.replyAt steps p.1.index).elim [] Frame.encode := by
    rw [Device.answer, hall, List.dropLast_concat, List.getLastD_concat, Device.receive_append,
      receive_written_pulses hpulses, Device.replyAt, hrequest]
  have hfits := hserves.replyAt hstep
  rw [hanswer, Line.chunks]
  cases hreply : dev.replyAt steps p.1.index with
  | some f => rfl
  | none =>
      rw [hreply] at hfits
      cases he.symm.trans hfits

/-- **A run on the line is not disturbed.** -/
theorem undisturbed_of_attached (hpulses : writeCalls t₁ = List.replicate k [syncByte])
    (hserves : dev.Serves steps dev') (hlisten : GuardsFrom (Listening steps) [] t₂)
    (hg : GuardsFrom (Attached dev line wait) t₁ t₂) :
    GuardsFrom (Undisturbed (line.chunks dev steps)) [] t₂ := by
  intro pre e post ht
  have hin := hg pre e post ht
  have hheard := hlisten pre e post ht
  rw [List.nil_append] at hheard ⊢
  cases e with
  | wire op result => exact hin
  | read result =>
      obtain ⟨p, step, hlast, hstep, he, hwritten⟩ := hheard (.inl rfl)
      intro p' hp'
      obtain rfl : p = p' := Option.some.inj (hlast.symm.trans hp')
      have hresult := hin.2 p (lastRequest_append hlast)
      rwa [answer_of_listening hpulses hserves hstep he hwritten, readsSince,
        since_request_append hlast] at hresult
  | now t =>
      obtain ⟨p, -, hlast, -⟩ := hheard (.inr rfl)
      intro p' hp' t₀ ht₀
      obtain rfl : p = p' := Option.some.inj (hlast.symm.trans hp')
      refine hin.2 p (lastRequest_append hlast) t₀ ?_
      rwa [waitingSince, since_request_append hlast]
  | _ => trivial

/-- The fuel lasts for every piece. -/
def Line.Lasts (line : Line) (dev : Device) (steps : List Step) (fuel : ℕ) : Prop :=
  line.boot.length ≤ fuel ∧ Suffices steps (line.chunks dev steps) fuel

instance (line : Line) (dev : Device) (steps : List Step) (fuel : ℕ) :
    Decidable (line.Lasts dev steps fuel) := inferInstanceAs (Decidable (_ ∧ _))

/-- **The run takes every answer for what it is**, and comes to its end. -/
theorem run_attached {w : World} {drain : DrainConfig} {fuel : ℕ} {r : Except Halt Session}
    (hpulses : writeCalls t₁ = List.replicate k [syncByte]) (hserves : dev.Serves steps dev')
    (hfuel : line.Lasts dev steps fuel) (hrun : runFresh w drain fuel steps = (r, t₂))
    (hg : GuardsFrom (Attached dev line wait) t₁ t₂) : ∃ s, r = .ok s := by
  have hlisten := (guarded_listening steps drain).run rfl w fuel
  rw [← runFresh, hrun] at hlisten
  have hreply : ∀ i, (dev.replyOf steps i).LenPlausible := by
    intro i
    rw [Device.replyOf]
    cases hat : dev.replyAt steps i with
    | none => exact (by decide : filler.LenPlausible)
    | some f =>
        cases hstep : steps[i]? with
        | some step =>
            have hfits := hserves.replyAt hstep
            rw [hat] at hfits
            exact hfits.2
        | none =>
            have hnone : (requests steps).getD i [] = [] := by
              rw [List.getD_eq_getElem?_getD, requests, List.getElem?_map, hstep]
              rfl
            rw [Device.replyAt, hnone] at hat
            cases hat
  have c := run_converses hreply line.noise_free (line.flatten_chunks dev steps) (s := .new steps)
    hfuel.2 rfl rfl (Nat.zero_le _) rfl hrun (undisturbed_of_attached hpulses hserves hlisten hg)
  have haccepts : ∀ (i : ℕ) (step : Step), steps[i]? = some step → step.expectReply = true →
      step.Accepts (dev.replyOf steps i) := by
    intro i step hstep he
    have hfits := hserves.replyAt hstep
    rw [Device.replyOf]
    cases hreplyAt : dev.replyAt steps i with
    | some f =>
        rw [hreplyAt] at hfits
        exact hfits.1
    | none =>
        rw [hreplyAt] at hfits
        cases he.symm.trans hfits
  have hend : ∃ s' calls, Converses drain (dev.replyOf steps) (.new steps) (.ok s') calls :=
    converses_of_accepts rfl haccepts
  obtain ⟨s', calls, c'⟩ := hend
  exact ⟨s', (c.deterministic c').1⟩

end Run

/-! ### The program -/

/-- **A session with a device on the line** ends with success, and has written all requests. -/
theorem session_attached {w : World} {opts : SessionOptions} {drain : DrainConfig} {job : Job}
    {fuel : ℕ} {info : TargetInfo} {steps : List Step} {dev' : Device}
    (hstatus : parseStatus line.status opts.handshakeBaud = .ok info)
    (hplan : plan info job opts = .ok steps) (hserves : dev.Serves steps dev')
    (hfuel : line.Lasts dev steps fuel)
    (hg : GuardsFrom (Attached dev line wait) [] (session w opts wait drain job fuel []).2) :
    (session w opts wait drain job fuel []).1 = .ok () ∧
      dev.receive (written (session w opts wait drain job fuel []).2) = dev' := by
  have hattached : GuardsFrom (Attached dev line wait) []
        (handshake w family opts wait fuel []).2 →
      (handshake w family opts wait fuel []).1 = .ok info := handshake_attached hstatus hfuel.1
  have hpaced := handshake_guards w family opts wait fuel
  obtain ⟨halt, t₁, hhand, hsession⟩ | ⟨info', t₁, e, hhand, hfails, hsession⟩ |
    ⟨info', t₁, steps', r, t₂, hhand, hplan', hrun, hsession⟩ :=
    session_divides w opts wait drain job fuel
  all_goals
    rw [hsession] at hg ⊢
    rw [hhand] at hattached hpaced
  · cases hattached hg
  · cases hattached hg
    cases hfails.symm.trans hplan
  obtain ⟨hg₁, hg₂⟩ := guardsFrom_append.mp hg
  cases hattached hg₁
  obtain rfl : steps' = steps := Except.ok.inj (hplan'.symm.trans hplan)
  obtain ⟨k, hpulses⟩ := writeCalls_of_paced hpaced
  obtain ⟨s, rfl⟩ := run_attached hpulses hserves hfuel hrun hg₂
  obtain ⟨-, _, a, b, hext, -, hok⟩ := run_extent hrun
  refine ⟨rfl, ?_⟩
  rw [written_append, Device.receive_append, receive_written_pulses hpulses, hext.written_eq,
    List.take_of_length_le (hok s rfl).1.ge, hserves.receive]

/-- What the program does with a command line that programs a file. -/
theorem main_of_flash {m : Machine} {argv : List String} {args : Args} {port path : String}
    {rest : List String} {w : World} {text : List Char} {img : IntelHex.Image} (fuel : ℕ)
    (hargs : parseArgs argv = .ok args)
    (hcmd : args.command = some "write" ∨ args.command = some "flash")
    (hpath : args.positional = path :: rest) (hport : args.port = some port)
    (hopen : m.openPort port args.handshakeBaud args.parityEven = .ok w)
    (hread : m.readToString path = .ok text) (himage : IntelHex.parse text = .ok img) :
    main m argv fuel =
      ((session w args.sessionOptions args.wait args.drainConfig
          (.flash img.bytes args.writeOptions) fuel []).1.map
        fun _ => [doneLine (.flash img.bytes args.writeOptions)],
      (session w args.sessionOptions args.wait args.drainConfig
        (.flash img.bytes args.writeOptions) fuel []).2) := by
  obtain ⟨cmd, hargs', hnames⟩ :
      ∃ cmd, args.command = some cmd ∧ (cmd = "write" ∨ cmd = "flash") := by
    obtain hcmd | hcmd := hcmd
    · exact ⟨_, hcmd, .inl rfl⟩
    · exact ⟨_, hcmd, .inr rfl⟩
  have hfile : ∃ notes, loadImage m path args.quiet = .ok (img.bytes, notes) := by
    rw [loadImage, hread]
    simp only [himage]
    exact ⟨_, rfl⟩
  obtain ⟨notes, hfile⟩ := hfile
  have hopen' : m.openPort port args.sessionOptions.handshakeBaud args.parityEven = .ok w := hopen
  rw [main_of_command fuel hargs hargs', dispatch_of_path hnames hpath, hfile]
  simp only [cmdSession, hport, hopen']

/-- The content of the flash, from the image in it. -/
theorem overwrite_padded (image : Bytes) (m : ℕ → UInt8) (a : ℕ) :
    overwrite m 0 (padded image (eraseBlocksFor image.length)) a =
      if h : a < image.length then image[a]
      else if a < eraseBlocksFor image.length * eraseBlock then 0xFF else m a := by
  have hpad := padded_eq (length_le_region image.length)
  rw [overwrite_apply, if_pos (Nat.zero_le a), Nat.sub_zero, hpad, List.getElem?_append]
  have hle := length_le_region image.length
  split_ifs with hin hregion
  · rw [List.getElem?_eq_getElem hin]
    rfl
  · rw [List.getElem?_replicate, if_pos (by omega)]
    rfl
  · rw [List.getElem?_replicate, if_neg (by omega)]
    rfl

/-- **Flashing works, end to end**, where no call on the wire fails, nothing comes too late and no
noise holds a pair of preamble bytes. For any device, any such line in front of it and any file:
where the text of the file has an image and there is a plan for the target of the status packet,
the program ends with success, and the device, with all that was written to it, holds in each
address what the last data record for it says, `0x00` in the gaps between the records, `0xFF`
behind them up to the end of the erased region, and what it held before behind that. -/
theorem main_flashes {m : Machine} {argv : List String} {args : Args} {port path : String}
    {rest : List String} {w : World} {text : List Char} {img : IntelHex.Image}
    {info : TargetInfo} {steps : List Step} {fuel : ℕ} (dev : Device) (line : Line)
    (hargs : parseArgs argv = .ok args)
    (hcmd : args.command = some "write" ∨ args.command = some "flash")
    (hpath : args.positional = path :: rest) (hport : args.port = some port)
    (hopen : m.openPort port args.handshakeBaud args.parityEven = .ok w)
    (hread : m.readToString path = .ok text) (himage : IntelHex.parse text = .ok img)
    (hstatus : parseStatus line.status args.handshakeBaud = .ok info)
    (hplan : plan info (.flash img.bytes args.writeOptions) args.sessionOptions = .ok steps)
    (hfuel : line.Lasts dev steps fuel)
    (hline : GuardsFrom (Attached dev line args.wait) [] (main m argv fuel).2) :
    (main m argv fuel).1 = .ok [doneLine (.flash img.bytes args.writeOptions)] ∧
      ∃ rs, IntelHex.Listed (Text.lines text) rs ∧ ∀ a,
        (dev.receive (written (main m argv fuel).2)).flash a =
          if a < extent (IntelHex.placed rs) then (overlay (IntelHex.placed rs) a).getD 0x00
          else if a < eraseBlocksFor (extent (IntelHex.placed rs)) * eraseBlock then 0xFF
          else dev.flash a := by
  have hmain := main_of_flash fuel hargs hcmd hpath hport hopen hread himage
  rw [hmain] at hline ⊢
  have hstatus' : parseStatus line.status args.sessionOptions.handshakeBaud = .ok info := hstatus
  obtain ⟨hok, hreceive⟩ :=
    session_attached hstatus' hplan (dev.serves_plan hstatus hplan) hfuel hline
  refine ⟨by rw [hok]; rfl, ?_⟩
  rw [hreceive]
  obtain ⟨rs, hlisted, -, ⟨-, st, hholds, hparse⟩ | ⟨-, e, hparse, -⟩⟩ | ⟨k, e, -, hparse, -⟩ :=
    IntelHex.parse_cases text
  · obtain rfl : img = st.image := by
      cases himage.symm.trans hparse
      rfl
    have hlen : st.image.bytes.length = extent (IntelHex.placed rs) := by
      rw [IntelHex.ParseState.image, List.length_map, hholds.length]
    refine ⟨rs, hlisted, fun a => ?_⟩
    rw [Device.withFlash_flash, overwrite_padded, ← hlen]
    split_ifs with hin hregion
    · have hget := hholds.getElem?_image hin
      rw [List.getElem?_eq_getElem hin] at hget
      exact Option.some.inj hget
    · rfl
    · rfl
  · cases himage.symm.trans hparse
  · cases himage.symm.trans hparse

/-- A stray byte in front of the status packet of the captured target, and clean answers. -/
def benchLine : Line where
  status := benchStatus
  boot := [[0x00], benchStatus.encode]
  hum := [0x00]
  noise _ := []
  cut _ bytes := [bytes]
  isStatus := by decide
  lenPlausible := by decide
  boot_eq := rfl
  hum_free := by decide
  noise_free _ := by decide
  cut_eq _ bytes := List.append_nil bytes

/-- A machine with the captured target on every port, and a file of three bytes. -/
def benchMachine : Machine where
  readToString _ := .ok ":0300000002004CAF\n:00000001FF\n".toList
  openPort _ _ _ := .ok (playback (benchLine.boot ++
    (List.range benchFlash.length).map fun i => (benchDevice.replyOf benchFlash i).encode))
  ports := []

/-- `main_flashes` for the captured target. -/
theorem main_flashes_bench :
    let t := (main benchMachine ["write", "a.hex", "--port", "tty", "--skip-options"] 40).2
    ∃ rs, IntelHex.Listed (Text.lines ":0300000002004CAF\n:00000001FF\n".toList) rs ∧
      ∀ a, (benchDevice.receive (written t)).flash a =
        if a < extent (IntelHex.placed rs) then (overlay (IntelHex.placed rs) a).getD 0x00
        else if a < eraseBlocksFor (extent (IntelHex.placed rs)) * eraseBlock then 0xFF
        else 0xA5 := by
  have himage : IntelHex.parse ":0300000002004CAF\n:00000001FF\n".toList =
      .ok { bytes := [0x02, 0x00, 0x4C], lowestAddr := 0, gapBytes := 0 } := by decide +kernel
  have hargs : parseArgs ["write", "a.hex", "--port", "tty", "--skip-options"] =
      .ok { Args.default with
        command := some "write", positional := ["a.hex"], port := some "tty",
        writeOptions := false } := rfl
  have hstatus : parseStatus benchLine.status 2400 = .ok benchTarget := parseStatus_benchStatus
  exact (main_flashes benchDevice benchLine hargs (.inl rfl) rfl rfl rfl rfl himage hstatus
    plan_benchFlash (by decide +kernel) (by decide +kernel)).2

end Stcbsl
