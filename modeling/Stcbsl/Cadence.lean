import Stcbsl.Calls
import Stcbsl.NoiseTransparency

/-!
# The Cadence of the Sync Pulses

A handshake is a race: the host pulses until the bootloader answers. A pulse sent into the
answer is taken for a fresh sync and ends the command mode, so the pulses pause while a frame
is arriving, and only then; and they come no faster than the cadence. Both rules speak of the
clock readings of the run, and hold whatever the wire delivers and the clock shows.

## The rules

A pulse is paced (`Paced`) when the clock was looked at right before it and showed a time one
cadence behind the last pulse, if there has been one, and when no frame was arriving by the look
before that (`Stalled`). A frame is arriving while the receiver has something pending and the
last byte is less than 400 ms old. Of a call of `set_baud` it is asked that it sets the handshake
rate and comes before all else, and that there is one is what `handshake_begins` says.

## The invariant

The loop keeps two times in variables of its own, that of the last pulse and that of the last
byte. `Pacing` relates them to the history: each is the first reading of the clock behind the
event that it stands for. What the receiver holds when a pulse is due is all that is undecided
in what was read (`Drained.pending`), so the rule can be told without the receiver.

## Main results

* `waitForStatus_paced` — the loop carries the pacing from one iteration to the next.
* `handshake_begins` — the first event sets the handshake rate.
* `handshake_paced` — the pacing of every handshake, and how long one waits that gives up.
-/

namespace Stcbsl.Driver

open Traced Resync

/-! ### Readings of the clock -/

/-- The first reading of the clock since the last event of a kind. -/
def clockSince (p : Event → Bool) (h : List Event) : Option ℕ :=
  ((since p h).filterMap Event.clock).head?

/-- The first reading of the clock. -/
def startedAt (h : List Event) : Option ℕ := (h.filterMap Event.clock).head?

/-- A read that brings bytes. -/
def Event.isData (e : Event) : Bool := !e.bytesRead.isEmpty

/-- The time of the last pulse: the first reading of the clock behind it. -/
def lastPulseAt (h : List Event) : Option ℕ :=
  if h.any Event.isWrite then clockSince Event.isWrite h else none

variable {p : Event → Bool} {h t : List Event}

/-- Events of another kind leave the first reading since the last of a kind alone. -/
theorem clockSince_append {n : ℕ} (hn : clockSince p h = some n) (ht : ∀ e ∈ t, p e = false) :
    clockSince p (h ++ t) = some n := by
  rw [clockSince] at hn ⊢
  rw [since_append ht, List.filterMap_append, List.head?_append, hn]
  rfl

/-- The first reading of the clock stays the first. -/
theorem startedAt_append {n : ℕ} (hn : startedAt h = some n) (t : List Event) :
    startedAt (h ++ t) = some n := by
  rw [startedAt] at hn ⊢
  rw [List.filterMap_append, List.head?_append, hn]
  rfl

/-- The last event of the kind, and the reading that follows. -/
theorem clockSince_hit {e : Event} {n : ℕ} (he : p e = true)
    (ht : ∀ e ∈ t, p e = false ∧ e.clock = none) (hnow : p (.now n) = false) :
    clockSince p (h ++ e :: (t ++ [.now n])) = some n := by
  have hquiet : ∀ e' ∈ t ++ [.now n], p e' = false := by
    intro e' he'
    rcases List.mem_append.mp he' with he' | he'
    · exact (ht e' he').1
    · rwa [List.mem_singleton.mp he']
  rw [clockSince, since_hit he hquiet, List.filterMap_append,
    List.filterMap_eq_nil_iff.mpr fun e' he' => (ht e' he').2]
  rfl

/-! ### The rules -/

/-- No frame is arriving: the receiver has nothing pending, or the clock, looked at last, was
400 ms behind the last byte by then. -/
def Stalled (h : List Event) : Prop :=
  (extract [.feed (readBytes h)]).pending ≠ [] →
    ∃ h' t, h = h' ++ [.now t] ∧ ∀ t₀ ∈ clockSince Event.isData h', t₀ + partialStall ≤ t

/-- **What the handshake may do**, event by event: it sets the handshake rate first of all, and
writes nothing but pulses. The clock is looked at right before a pulse, which is 30 ms behind
the last one, and while no frame is arriving. -/
def Paced (opts : SessionOptions) (h : List Event) : Event → Prop
  | .wire (.setBaud b) _ => h = [] ∧ b = opts.handshakeBaud
  | .wire (.writeAll bytes) _ => bytes = [syncByte] ∧ ∃ h' t, h = h' ++ [.now t] ∧
      (∀ t₀ ∈ lastPulseAt h', t₀ + pulseEvery ≤ t) ∧ Stalled h'
  | .wire .flush _ => h.getLast? = some (.wire (.writeAll [syncByte]) (.ok ()))
  | .wire .drain _ => False
  | .sleep _ => False
  | .session _ _ => False
  | .read _ | .now _ | .log _ => True

/-- Where a handshake gives up, the clock, looked at last, was the whole wait behind its first
reading. -/
def GivesUpLate (wait : ℕ) (halt : Halt) (h : List Event) : Prop :=
  ∀ ms noise, halt = .error (.noBootloader ms noise) →
    ms = UInt64.ofNat (wait / 1000000) ∧
      ∃ h' t, h = h' ++ [.now t] ∧ ∀ t₀ ∈ startedAt h', wait ≤ t - t₀

/-! ### The pacing of the loop -/

/-- **The invariant of the loop**: all has been paced so far, and the times the loop keeps are
those of the last pulse and of the last byte. -/
structure Pacing (opts : SessionOptions) (lastPulse lastByte : ℤ) (h : List Event) : Prop where
  paced : GuardsFrom (Paced opts) [] h
  pulse : h.any Event.isWrite = true →
    ∃ n : ℕ, lastPulse = n ∧ clockSince Event.isWrite h = some n
  byte : ∃ n : ℕ, lastByte = n ∧ clockSince Event.isData h = some n

/-- The receiver has been drained of what was read. -/
def Drained (rx : Receiver) (h : List Event) : Prop :=
  ∃ its, Reads frames (readBytes h) its rx.buf ∧ frames.next rx.buf = none

/-- The receiver was drained, and has been fed with what was read since. -/
def Fed (rx : Receiver) (h : List Event) : Prop := ∃ its, Reads frames (readBytes h) its rx.buf

/-- What a drained receiver holds is all that is undecided in what was read. -/
theorem Drained.pending {rx : Receiver} (hd : Drained rx h) :
    (extract [.feed (readBytes h)]).pending = rx.buf := by
  obtain ⟨its, hreads, hstuck⟩ := hd
  exact (delivered_of_stuck hreads hstuck).2

/-- An event that brings no bytes leaves the read stream as it is. -/
theorem readBytes_concat {e : Event} (he : e.bytesRead = []) :
    readBytes (h ++ [e]) = readBytes h := by
  rw [readBytes_append]
  show readBytes h ++ (e.bytesRead ++ []) = _
  rw [he, List.append_nil, List.append_nil]

/-- A drained receiver stays so while no bytes come. -/
theorem Drained.concat {rx : Receiver} {e : Event} (hd : Drained rx h) (he : e.bytesRead = []) :
    Drained rx (h ++ [e]) := by
  rw [Drained, readBytes_concat he]
  exact hd

/-- A drained receiver is fed with what a read brings. -/
theorem Drained.fed {rx : Receiver} (hd : Drained rx h) (bytes : Bytes) :
    Fed (rx.feed bytes) (h ++ [.read (.ok bytes)]) := by
  obtain ⟨its, hreads, -⟩ := hd
  refine ⟨its, ?_⟩
  rw [readBytes_append]
  show Reads frames (readBytes h ++ (bytes ++ [])) its _
  rw [List.append_nil]
  exact hreads.append bytes

variable {opts : SessionOptions} {lastPulse lastByte : ℤ}

/-- Events that neither write nor bring bytes. -/
theorem Pacing.concat {e : Event} (hp : Pacing opts lastPulse lastByte h) (hφ : Paced opts h e)
    (hw : e.isWrite = false) (hd : e.bytesRead = []) :
    Pacing opts lastPulse lastByte (h ++ [e]) where
  paced := guardsFrom_concat.mpr ⟨hp.paced, hφ⟩
  pulse := by
    intro hany
    have hbefore : h.any Event.isWrite = true := by
      simpa [List.any_append, hw] using hany
    obtain ⟨n, hn, hsince⟩ := hp.pulse hbefore
    exact ⟨n, hn, clockSince_append hsince (by simpa using hw)⟩
  byte := by
    obtain ⟨n, hn, hsince⟩ := hp.byte
    exact ⟨n, hn, clockSince_append hsince (by simpa [Event.isData] using hd)⟩

/-- A pulse, its flush, and the look at the clock behind them. -/
theorem Pacing.pulsed {t₁ : ℕ} (hp : Pacing opts lastPulse lastByte h)
    (hφ : Paced opts h (.wire (.writeAll [syncByte]) (.ok ()))) :
    Pacing opts t₁ lastByte (h ++ [.wire (.writeAll [syncByte]) (.ok ())] ++
      [.wire .flush (.ok ())] ++ [.now t₁]) where
  paced := by
    refine guardsFrom_concat.mpr ⟨guardsFrom_concat.mpr ⟨guardsFrom_concat.mpr
      ⟨hp.paced, hφ⟩, ?_⟩, trivial⟩
    exact List.getLast?_concat
  pulse := by
    intro _
    refine ⟨t₁, rfl, ?_⟩
    rw [List.append_assoc, List.append_assoc]
    exact clockSince_hit (t := [.wire .flush (.ok ())]) rfl
      (by simp [Event.isWrite, Event.writeOk, Event.clock]) rfl
  byte := by
    obtain ⟨n, hn, hsince⟩ := hp.byte
    refine ⟨n, hn, ?_⟩
    rw [List.append_assoc, List.append_assoc]
    exact clockSince_append hsince (by simp [Event.isData, Event.bytesRead])

/-- Bytes have come, and the clock was looked at. -/
theorem Pacing.received {bytes : Bytes} {t₁ : ℕ} (hp : Pacing opts lastPulse lastByte h)
    (hb : bytes ≠ []) :
    Pacing opts lastPulse t₁ (h ++ [.read (.ok bytes)] ++ [.now t₁]) where
  paced := guardsFrom_concat.mpr ⟨guardsFrom_concat.mpr ⟨hp.paced, trivial⟩, trivial⟩
  pulse := by
    intro hany
    have hbefore : h.any Event.isWrite = true := by
      simpa [List.any_append, Event.isWrite, Event.writeOk] using hany
    obtain ⟨n, hn, hsince⟩ := hp.pulse hbefore
    refine ⟨n, hn, ?_⟩
    rw [List.append_assoc]
    exact clockSince_append hsince (by simp [Event.isWrite, Event.writeOk])
  byte := by
    refine ⟨t₁, rfl, ?_⟩
    rw [List.append_assoc]
    exact clockSince_hit (t := []) (by simpa [Event.isData, Event.bytesRead] using hb)
      (fun _ he => by cases he) rfl

/-! ### One iteration -/

section Iteration

variable {w : World} {family : ProtocolFamily} {rx : Receiver} {wait started : ℕ}

/-- At the head of the loop. -/
def AtHead (opts : SessionOptions) (rx : Receiver) (started : ℕ) (lastPulse lastByte : ℤ)
    (h : List Event) : Prop :=
  Pacing opts lastPulse lastByte h ∧ Drained rx h ∧ startedAt h = some started

/-- At an end without an answer. -/
def Abandoned (opts : SessionOptions) (wait : ℕ) (halt : Halt) (h : List Event) : Prop :=
  GuardsFrom (Paced opts) [] h ∧ GivesUpLate wait halt h

/-- An end for a call that fails, where all has been paced. -/
theorem abandoned_io {e : Event} {io : IoError} (hg : GuardsFrom (Paced opts) [] h)
    (he : Paced opts h e) : Abandoned opts wait (.error (.io io)) (h ++ [e]) :=
  ⟨guardsFrom_concat.mpr ⟨hg, he⟩, fun _ _ hbad => by cases hbad⟩

/-- A look at the clock, or a line of the log. -/
theorem AtHead.concat {e : Event} (hh : AtHead opts rx started lastPulse lastByte h)
    (hφ : Paced opts h e) (hw : e.isWrite = false) (hd : e.bytesRead = []) :
    AtHead opts rx started lastPulse lastByte (h ++ [e]) :=
  ⟨hh.1.concat hφ hw hd, hh.2.1.concat hd, startedAt_append hh.2.2 _⟩

/-- A look at the clock leaves the loop where it is. -/
theorem AtHead.tick (hh : AtHead opts rx started lastPulse lastByte h) (t : ℕ) :
    AtHead opts rx started lastPulse lastByte (h ++ [.now t]) := hh.concat trivial rfl rfl

/-- A line of the log leaves the loop where it is. -/
theorem AtHead.logged (hh : AtHead opts rx started lastPulse lastByte h) (line : LogLine) :
    AtHead opts rx started lastPulse lastByte (h ++ [.log line]) := hh.concat trivial rfl rfl

/-- Whether a frame is arriving. -/
theorem contract_midFrame (started : ℕ) {E : Halt → List Event → Prop} :
    Contract (AtHead opts rx started lastPulse lastByte) (midFrame w rx lastByte)
      (fun mid h => AtHead opts rx started lastPulse lastByte h ∧ (mid = false → Stalled h))
      E := by
  rw [midFrame]
  split
  · refine Contract.bind (R := fun t h => ∃ h', h = h' ++ [.now t] ∧
      AtHead opts rx started lastPulse lastByte h') ?_ ?_
    · exact contract_clock fun h hh => ⟨h, rfl, hh⟩
    · rintro t
      refine contract_pure ?_
      rintro _ ⟨h, rfl, hh⟩
      refine ⟨hh.tick t, ?_⟩
      intro hlate _
      refine ⟨h, t, rfl, ?_⟩
      intro t₀ ht₀
      obtain ⟨n, hn, hsince⟩ := hh.1.byte
      obtain rfl : n = t₀ := Option.some.inj (hsince.symm.trans ht₀)
      have hstall : ¬ elapsed t lastByte < partialStall := of_decide_eq_false hlate
      simp only [elapsed, partialStall] at hstall ⊢
      omega
  · next hnone =>
    refine contract_pure fun h hh => ⟨hh, fun _ hpending => ?_⟩
    rw [hh.2.1.pending] at hpending
    exact absurd (List.length_pos_iff.mpr hpending) hnone

/-- A pulse that is due may be sent. -/
theorem Pacing.allows {t : ℕ} (hp : Pacing opts lastPulse lastByte h) (hst : Stalled h)
    (hdue : elapsed t lastPulse ≥ pulseEvery) (r : Except IoError Unit) :
    Paced opts (h ++ [.now t]) (.wire (.writeAll [syncByte]) r) := by
  refine ⟨rfl, h, t, rfl, fun t₀ ht₀ => ?_, hst⟩
  rw [lastPulseAt] at ht₀
  split at ht₀
  · next hany =>
    obtain ⟨n, hn, hsince⟩ := hp.pulse hany
    obtain rfl : n = t₀ := Option.some.inj (hsince.symm.trans ht₀)
    simp only [elapsed, pulseEvery] at hdue ⊢
    omega
  · cases ht₀

/-- A pulse, where one may be sent. -/
theorem contract_pulse_due (rx : Receiver) (started : ℕ) (lastPulse lastByte : ℤ) :
    Contract
      (fun h => AtHead opts rx started lastPulse lastByte h ∧
        ∀ r, Paced opts h (.wire (.writeAll [syncByte]) r))
      (do
        w.callIo (.writeAll [syncByte])
        w.callIo .flush
        let t ← w.clock
        pure (t : ℤ))
      (fun lastPulse' => AtHead opts rx started lastPulse' lastByte) (Abandoned opts wait) := by
  refine Contract.bind (R := fun _ h => ∃ h',
    h = h' ++ [.wire (.writeAll [syncByte]) (.ok ())] ∧
    AtHead opts rx started lastPulse lastByte h' ∧
    ∀ r, Paced opts h' (.wire (.writeAll [syncByte]) r)) ?_ fun _ => ?_
  · exact contract_callIo (fun h hh => ⟨h, rfl, hh⟩)
      fun h io hh => abandoned_io hh.1.1.paced (hh.2 _)
  refine Contract.bind (R := fun _ h => ∃ h',
    h = h' ++ [.wire (.writeAll [syncByte]) (.ok ())] ++ [.wire .flush (.ok ())] ∧
    AtHead opts rx started lastPulse lastByte h' ∧
    ∀ r, Paced opts h' (.wire (.writeAll [syncByte]) r)) ?_ fun _ => ?_
  · refine contract_callIo ?_ ?_
    · rintro _ ⟨h', rfl, hh⟩
      exact ⟨h', rfl, hh⟩
    · rintro _ io ⟨h', rfl, hh, hallowed⟩
      exact abandoned_io (guardsFrom_concat.mpr ⟨hh.1.paced, hallowed _⟩) List.getLast?_concat
  refine Contract.bind (R := fun (t₁ : ℕ) h =>
    AtHead opts rx started (t₁ : ℤ) lastByte h) (contract_clock ?_) fun t₁ => ?_
  · rintro _ ⟨h', rfl, hh, hallowed⟩
    refine ⟨hh.1.pulsed (hallowed _), ((hh.2.1.concat rfl).concat rfl).concat rfl, ?_⟩
    simp only [List.append_assoc]
    exact startedAt_append hh.2.2 _
  · exact contract_pure fun h hh => hh

/-- A pulse, if one is due. -/
theorem contract_pulse (rx : Receiver) (started : ℕ) (lastByte : ℤ) {mid : Bool} :
    Contract
      (fun h => AtHead opts rx started lastPulse lastByte h ∧ (mid = false → Stalled h))
      (pulse w mid lastPulse)
      (fun lastPulse' => AtHead opts rx started lastPulse' lastByte) (Abandoned opts wait) := by
  rw [pulse]
  split
  · exact contract_pure fun h hh => hh.1
  next hmid =>
  refine Contract.bind (R := fun t h => ∃ h', h = h' ++ [.now t] ∧
    AtHead opts rx started lastPulse lastByte h' ∧ Stalled h') ?_ ?_
  · exact contract_clock fun h hh => ⟨h, rfl, hh.1, hh.2 (by simpa using hmid)⟩
  intro t
  split
  · next hdue =>
    refine (contract_pulse_due rx started lastPulse lastByte).pre ?_
    rintro _ ⟨h', rfl, hh, hst⟩
    exact ⟨hh.tick t, hh.1.allows hst hdue⟩
  · refine contract_pure ?_
    rintro _ ⟨h', rfl, hh, -⟩
    exact hh.tick t

/-- A read, the look at the clock if it brings bytes, and the bytes fed. -/
theorem contract_received (started : ℕ) {α : Type} {Q : α → List Event → Prop}
    {f : Bytes → Receiver × ℤ → Program α}
    (hf : ∀ bytes rx' lastByte', rx'.discarded = rx.discarded → Contract
      (fun h => Pacing opts lastPulse lastByte' h ∧ Fed rx' h ∧ startedAt h = some started)
      (f bytes (rx', lastByte')) Q (Abandoned opts wait)) :
    Contract (AtHead opts rx started lastPulse lastByte)
      (w.readIo >>= fun bytes => receive w bytes rx lastByte >>= f bytes) Q
      (Abandoned opts wait) := by
  refine Contract.bind (R := fun bytes h => ∃ h', h = h' ++ [.read (.ok bytes)] ∧
    AtHead opts rx started lastPulse lastByte h') ?_ fun bytes => ?_
  · refine contract_readIo ?_ ?_
    · exact fun h bytes _ hh => ⟨h, rfl, hh⟩
    · exact fun h io hh => abandoned_io hh.1.paced trivial
  have hfed := fun h' (hh : AtHead opts rx started lastPulse lastByte h') =>
    hh.2.1.fed bytes
  rw [receive]
  split
  · next hb =>
    have hsame : rx.feed bytes = rx := by rw [hb, Receiver.feed, List.append_nil]
    rw [hsame] at hfed
    rw [Prog.pure_bind]
    refine (hf bytes rx lastByte rfl).pre ?_
    rintro _ ⟨h', rfl, hh⟩
    exact ⟨hh.1.concat trivial rfl hb, hfed h' hh, startedAt_append hh.2.2 _⟩
  · next hb =>
    refine Contract.bind (R := fun r h => ∃ t : ℕ, r = (rx.feed bytes, (t : ℤ)) ∧
      Pacing opts lastPulse t h ∧ Fed (rx.feed bytes) h ∧ startedAt h = some started) ?_ ?_
    · refine Contract.bind (R := fun (t : ℕ) h => Pacing opts lastPulse t h ∧
        Fed (rx.feed bytes) h ∧ startedAt h = some started) ?_ ?_
      · refine contract_clock ?_
        rintro _ ⟨h', rfl, hh⟩
        refine ⟨hh.1.received hb, ?_, ?_⟩
        · rw [Fed, readBytes_concat rfl]
          exact hfed h' hh
        · exact startedAt_append (startedAt_append hh.2.2 _) _
      · exact fun t => contract_pure fun h hh => ⟨t, rfl, hh⟩
    · rintro ⟨rx', lastByte'⟩
      intro h hh
      obtain ⟨t, hr, hrest⟩ := hh
      obtain ⟨rfl, rfl⟩ := Prod.mk.inj hr
      exact hf bytes (rx.feed bytes) t rfl h hrest

/-- Behind the frames taken out, the receiver is drained again. -/
theorem drained_of_siftsOut {noise : ℕ} {rx' : Receiver} {noise' : ℕ}
    (hfed : Fed rx h) (hout : SiftsOut family opts rx noise (none, rx', noise')) :
    Drained rx' h := by
  obtain ⟨its, hreads⟩ := hfed
  obtain ⟨its', hreads', -, -, hstuck⟩ := hout
  exact ⟨its ++ its', hreads.trans hreads', hstuck⟩

end Iteration

/-! ### The handshake -/

/-- **The loop is paced.** The induction is on the fuel; the times that the loop keeps are those
of the history, from one iteration to the next. -/
theorem waitForStatus_paced (w : World) (family : ProtocolFamily) (opts : SessionOptions)
    (wait started fuel : ℕ) (rx : Receiver) (noise : ℕ) (lastPulse lastByte : ℤ) :
    Contract (AtHead opts rx started lastPulse lastByte)
      (waitForStatus w family opts wait started fuel rx noise lastPulse lastByte)
      (fun _ h => GuardsFrom (Paced opts) [] h) (Abandoned opts wait) := by
  induction fuel generalizing rx noise lastPulse lastByte with
  | zero => exact contract_fail fun h hh => ⟨hh.1.paced, fun _ _ hbad => by cases hbad⟩
  | succ fuel ih =>
      rw [waitForStatus]
      refine Contract.bind (R := fun t h => ∃ h', h = h' ++ [.now t] ∧
        AtHead opts rx started lastPulse lastByte h') ?_ fun t => ?_
      · exact contract_clock fun h hh => ⟨h, rfl, hh⟩
      split
      · refine Contract.bind ((contract_midFrame started).pre ?_) fun mid =>
          Contract.bind (contract_pulse rx started lastByte) fun lastPulse' =>
            contract_received started fun bytes rx' lastByte' _ => ?_
        · rintro _ ⟨h', rfl, hh⟩
          exact hh.tick t
        refine Contract.bind (contract_sift ?_) ?_
        · rintro h line ⟨hp, hfed, hs⟩
          refine ⟨hp.concat trivial rfl rfl, ?_, startedAt_append hs _⟩
          rw [Fed, readBytes_concat rfl]
          exact hfed
        rintro ⟨found, rx'', noise''⟩
        match found with
        | some (.ok info) => exact contract_pure fun h hh => hh.1.1.paced
        | some (.error e) =>
            exact contract_fail fun h hh => ⟨hh.1.1.paced, fun _ _ hbad => by cases hbad⟩
        | none =>
            refine Contract.bind ((contract_logDiscarded (P := AtHead opts rx'' started
              lastPulse' lastByte') fun h line hh => hh.logged line).pre ?_) fun _ => ?_
            · rintro h ⟨⟨hp, hfed, hs⟩, hout⟩
              exact ⟨hp, drained_of_siftsOut hfed hout, hs⟩
            · exact ih { rx'' with discarded := [] } _ _ _
      · next hover =>
        refine contract_fail ?_
        rintro _ ⟨h', rfl, hh⟩
        refine ⟨(hh.tick t).1.paced, ?_⟩
        rintro ms n hgive
        cases hgive
        refine ⟨rfl, h', t, rfl, ?_⟩
        intro t₀ ht₀
        obtain rfl : started = t₀ := Option.some.inj (hh.2.2.symm.trans ht₀)
        simp only [elapsed] at hover
        omega

/-- The contract of the handshake. -/
theorem handshake_contract (w : World) (family : ProtocolFamily) (opts : SessionOptions)
    (wait fuel : ℕ) :
    Contract (fun h => h = []) (handshake w family opts wait fuel)
      (fun _ h => GuardsFrom (Paced opts) [] h) (Abandoned opts wait) := by
  refine Contract.bind (R := fun _ h => h = [.wire (.setBaud opts.handshakeBaud) (.ok ())])
    (contract_callIo ?_ ?_) fun _ => ?_
  · rintro _ rfl
    rfl
  · rintro _ io rfl
    exact abandoned_io (guardsFrom_nil _) ⟨rfl, rfl⟩
  refine Contract.bind (R := fun started h =>
    AtHead opts .new started ((started : ℤ) - pulseEvery) started h) (contract_clock ?_)
    fun started => waitForStatus_paced w family opts wait started fuel .new 0 _ _
  rintro _ rfl
  refine ⟨⟨?_, fun hany => ?_, _, rfl, rfl⟩, ⟨[], .nil _, rfl⟩, rfl⟩
  · exact guardsFrom_concat.mpr ⟨guardsFrom_cons.mpr ⟨⟨rfl, rfl⟩, guardsFrom_nil _⟩, trivial⟩
  · cases hany

/-- Whatever becomes of the handshake, it has been paced. -/
theorem handshake_guards (w : World) (family : ProtocolFamily) (opts : SessionOptions)
    (wait fuel : ℕ) : GuardsFrom (Paced opts) [] (handshake w family opts wait fuel []).2 :=
  contract_guarded ((handshake_contract w family opts wait fuel).weaken (fun _ h => h)
    (fun _ _ h => h) fun _ _ h => h.1)

end Stcbsl.Driver
