import Mathlib.Tactic.IntervalCases
import Stcbsl.Receiver

/-!
# What a Receiver Extracts from a Stream

A caller feeds a receiver in pieces, polls it at any time and takes the discarded bytes at
any time. `extract` runs such a schedule of calls on a new receiver and drains it. Its
result is a function of the bytes fed alone, namely the scan of the stream by `frames`
(`extract_eq_scan`), and that scan has a description that mentions no loop at all
(`StreamSpec`): the delivered frames are the leftmost-greedy occurrences of plausible
frames, up to the first position at which the stream does not yet decide.

## From schedules to streams

A schedule is a list of calls, and the invariant of running it (`Polled.Reading`) says that what
the caller has got so far is a reading of the bytes fed so far, and that the receiver holds the
rest. Readings do not change when bytes are appended, so the invariant is kept by each of the
calls, and draining makes the reading a maximal one. There is only one of these.

## Noise

Noise is free of the preamble pair in most results (`PreambleFree`); a lone first byte of it is
noise like any other. What noise can do that is not free of it is the subject of the last part: it
may declare a frame that reaches past the reply, and the reply then waits for the bytes of it.

## Main results

* `extract_eq_scan` — every schedule of calls computes the scan of the bytes it feeds.
* `chunking_is_irrelevant` — two schedules of the same bytes extract the same.
* `extract_noisy_frames` — frames in noise that is free of the preamble come out intact.
* `extract_streamSpec`, `delivers_leftmost_greedy` — the declarative description.
* `complete_reply_delivered_iff` — when a complete reply behind noise is held back.
-/

namespace Stcbsl

open Resync

/-! ### Schedules of calls -/

namespace Receiver

/-- Call `nextFrame` until it answers `none`. -/
def drain (rx : Receiver) : List (Except FrameError Frame) × Receiver :=
  match h : rx.nextFrame with
  | (none, rx') => ([], rx')
  | (some r, rx') =>
      have : rx'.pending < rx.pending := nextFrame_pending h
      (r :: (drain rx').1, (drain rx').2)
termination_by rx.pending

/-- A call on a receiver. -/
inductive Call
  | feed (bytes : Bytes)
  | nextFrame
  | takeDiscarded
  deriving DecidableEq, Repr

/-- The bytes a call feeds. -/
def Call.fed : Call → Bytes
  | feed bytes => bytes
  | nextFrame => []
  | takeDiscarded => []

/-- A receiver and what its caller has got out of it: the results polled so far and the
discarded bytes taken so far. -/
structure Polled where
  rx : Receiver
  results : List (Except FrameError Frame)
  taken : Bytes

/-- A new receiver, before any call. -/
def Polled.start : Polled := { rx := new, results := [], taken := [] }

/-- The effect of one call. -/
def Polled.call (s : Polled) : Call → Polled
  | .feed bytes => { s with rx := s.rx.feed bytes }
  | .nextFrame =>
      { s with rx := s.rx.nextFrame.2, results := s.results ++ s.rx.nextFrame.1.toList }
  | .takeDiscarded =>
      { s with rx := s.rx.takeDiscarded.2, taken := s.taken ++ s.rx.takeDiscarded.1 }

end Receiver

open Receiver

/-- The stream a schedule feeds. -/
def fedBytes (calls : List Call) : Bytes := calls.flatMap Call.fed

/-- Everything a caller ends up with. -/
structure Extraction where
  results : List (Except FrameError Frame)
  discarded : Bytes
  pending : Bytes

/-- Run a schedule on a new receiver, then drain it. The discarded bytes are those taken
along the way followed by those the receiver still holds. -/
def extract (calls : List Call) : Extraction :=
  let s := calls.foldl Polled.call Polled.start
  { results := s.results ++ s.rx.drain.1
    discarded := s.taken ++ s.rx.drain.2.discarded
    pending := s.rx.drain.2.buf }

/-- What a reading of the stream amounts to for the caller. -/
def extractionOf (its : List StreamItem) (rest : Bytes) : Extraction :=
  { results := its.filterMap Item.output
    discarded := its.flatMap Item.discarded
    pending := rest }

/-! ### Every schedule computes the scan -/

/-- Draining is a maximal reading. -/
theorem Receiver.drain_reads (rx : Receiver) :
    ∃ its : List StreamItem, Reads frames rx.buf its rx.drain.2.buf ∧
      its.filterMap Item.output = rx.drain.1 ∧
      rx.drain.2.discarded = rx.discarded ++ its.flatMap Item.discarded ∧
      frames.next rx.drain.2.buf = none := by
  fun_induction Receiver.drain rx with
  | case1 rx rx' h =>
      obtain ⟨its, hr, hout, hdisc, hend⟩ := rx.nextFrame_reads
      rw [h] at hr hout hdisc hend
      exact ⟨its, hr, hout, hdisc, hend rfl⟩
  | case2 rx r rx' h _ ih =>
      obtain ⟨its, hr, hout, hdisc, -⟩ := rx.nextFrame_reads
      rw [h] at hr hout hdisc
      obtain ⟨its', hr', hout', hdisc', hend'⟩ := ih
      exact ⟨its ++ its', hr.trans hr', by rw [List.filterMap_append, hout, hout']; rfl,
        by rw [hdisc', hdisc, List.flatMap_append, List.append_assoc], hend'⟩

/-- **The schedule invariant**: what the caller has got so far is a reading of the bytes
fed so far, and the receiver holds the rest. -/
def Receiver.Polled.Reading (s : Polled) (fed : Bytes) : Prop :=
  ∃ its : List StreamItem, Reads frames fed its s.rx.buf ∧
    its.filterMap Item.output = s.results ∧
    its.flatMap Item.discarded = s.taken ++ s.rx.discarded

/-- In front of the first call nothing has been read. -/
theorem Receiver.Polled.reading_start : Polled.start.Reading [] :=
  ⟨[], .nil _, rfl, rfl⟩

/-- One call preserves the schedule invariant. -/
theorem Receiver.Polled.Reading.call {s : Polled} {fed : Bytes} (h : s.Reading fed)
    (c : Call) : (s.call c).Reading (fed ++ c.fed) := by
  obtain ⟨its, hr, hout, hdisc⟩ := h
  cases c with
  | feed bytes => exact ⟨its, hr.append bytes, hout, hdisc⟩
  | nextFrame =>
      obtain ⟨its', hr', hout', hdisc', -⟩ := s.rx.nextFrame_reads
      refine ⟨its ++ its', ?_, ?_, ?_⟩
      · rw [Call.fed, List.append_nil]
        exact hr.trans hr'
      · rw [List.filterMap_append, hout, hout']
        rfl
      · show _ = s.taken ++ s.rx.nextFrame.2.discarded
        rw [List.flatMap_append, hdisc, hdisc', List.append_assoc]
  | takeDiscarded =>
      refine ⟨its, ?_, hout, ?_⟩
      · rw [Call.fed, List.append_nil]
        exact hr
      · rw [hdisc]
        simp [Polled.call, takeDiscarded]

/-- A run of calls preserves the schedule invariant. -/
theorem Receiver.Polled.Reading.run {s : Polled} {fed : Bytes} (h : s.Reading fed)
    (calls : List Call) : (calls.foldl Polled.call s).Reading (fed ++ fedBytes calls) := by
  induction calls generalizing s fed with
  | nil => rwa [fedBytes, List.flatMap_nil, List.append_nil]
  | cons c calls ih =>
      have := ih (h.call c)
      rwa [List.append_assoc] at this

/-- **Every schedule computes the scan of the bytes it feeds.** -/
theorem extract_eq_scan (calls : List Call) :
    extract calls =
      extractionOf (scan frames (fedBytes calls)).1 (scan frames (fedBytes calls)).2 := by
  obtain ⟨its, hr, hout, hdisc⟩ := Polled.reading_start.run calls
  obtain ⟨its', hr', hout', hdisc', hend⟩ :=
    (calls.foldl Polled.call Polled.start).rx.drain_reads
  rw [List.nil_append] at hr
  rw [(hr.trans hr').eq_scan hend, extract, extractionOf]
  simp only [List.filterMap_append, List.flatMap_append, hout, hout', hdisc, hdisc',
    List.append_assoc]

/-- **Chunking is irrelevant.** Two schedules that feed the same stream, cut and polled in
whatever way, extract the same results, the same discarded bytes and the same rest. -/
theorem chunking_is_irrelevant (calls₁ calls₂ : List Call)
    (h : fedBytes calls₁ = fedBytes calls₂) : extract calls₁ = extract calls₂ := by
  rw [extract_eq_scan, extract_eq_scan, h]

/-- `chunking_is_irrelevant` for a run frame fed whole, and fed byte by byte with a poll
and a take in between. -/
theorem chunking_is_irrelevant_run_frame :
    extract [.feed [0x46, 0xB9, 0x68, 0x00, 0x06, 0x82, 0xF0, 0x16]] =
      extract [.feed [0x46], .nextFrame, .feed [0xB9, 0x68, 0x00], .takeDiscarded, .nextFrame,
        .feed [0x06, 0x82, 0xF0], .nextFrame, .feed [0x16]] :=
  chunking_is_irrelevant _ _ (by decide)

/-! ### Frames in noise -/

/-- The noise carries no adjacent preamble pair. -/
def PreambleFree (noise : Bytes) : Prop := ¬ [magic0, magic1] <:+: noise

instance (noise : Bytes) : Decidable (PreambleFree noise) :=
  inferInstanceAs (Decidable (¬ [magic0, magic1] <:+: noise))

/-- The rest of noise without a preamble has none either. -/
theorem PreambleFree.tail {b : UInt8} {noise : Bytes} (h : PreambleFree (b :: noise)) :
    PreambleFree noise :=
  fun hc => h (hc.trans (List.suffix_cons b noise).isInfix)

/-- Noise in front of a preamble is dropped byte by byte. A lone first magic byte is no
exception, not even right before the preamble. -/
theorem scan_noise {noise : Bytes} (h : PreambleFree noise) (t : Bytes) :
    scan frames (noise ++ magic0 :: t) =
      (noise.map Item.skipped ++ (scan frames (magic0 :: t)).1,
        (scan frames (magic0 :: t)).2) := by
  induction noise with
  | nil => rfl
  | cons b noise ih =>
      have hv : frames.verdict (b :: (noise ++ magic0 :: t)) = .skip := by
        rw [frames_verdict]
        by_cases hb : b = magic0
        · cases noise with
          | nil => simp [verdict, magic0, magic1]
          | cons c noise =>
              have hc : c ≠ magic1 := fun hc => h ⟨[], noise, by rw [hb, hc]; rfl⟩
              simp [verdict, hc]
        · simp [verdict, hb]
      rw [List.cons_append, scan_of_some (frames.next_of_skip hv), ih h.tail]
      rfl

/-- Noise at the end of the stream is dropped too, but for a final first magic byte. -/
theorem scan_last_noise {noise : Bytes} (h : PreambleFree noise) :
    ∃ dropped, scan frames noise =
        (dropped.map Item.skipped, if noise.getLast? = some magic0 then [magic0] else []) ∧
      dropped ++ (if noise.getLast? = some magic0 then [magic0] else []) = noise := by
  induction noise with
  | nil => exact ⟨[], scan_of_none rfl, rfl⟩
  | cons b noise ih =>
      cases noise with
      | nil =>
          by_cases hb : b = magic0
          · subst hb
            exact ⟨[], scan_of_none (frames_next_eq_none_iff.mpr (.inr (.inl rfl))), rfl⟩
          · have hv : frames.verdict [b] = .skip := by
              simp [verdict, hb]
            refine ⟨[b], ?_, by simp [hb]⟩
            rw [scan_of_some (frames.next_of_skip hv), scan_of_none rfl]
            simp [hb]
      | cons c noise =>
          have hv : frames.verdict (b :: c :: noise) = .skip := by
            rw [frames_verdict]
            by_cases hb : b = magic0
            · have hc : c ≠ magic1 := fun hc => h ⟨[], noise, by rw [hb, hc]; rfl⟩
              simp [verdict, hc]
            · simp [verdict, hb]
          obtain ⟨dropped, hscan, happ⟩ := ih h.tail
          refine ⟨b :: dropped, ?_, ?_⟩
          · rw [scan_of_some (frames.next_of_skip hv), hscan, List.getLast?_cons_cons]
            rfl
          · rw [List.getLast?_cons_cons, List.cons_append, happ]

/-- A stream of frames, each behind its own noise. -/
def noisyStream (fs : List (Bytes × Frame)) : Bytes :=
  fs.flatMap fun p => p.1 ++ p.2.encode

/-- The scan of noise and one frame. -/
theorem scan_noise_frame {noise : Bytes} {f : Frame} (hn : PreambleFree noise)
    (hf : f.LenPlausible) (t : Bytes) :
    scan frames (noise ++ f.encode ++ t) =
      (noise.map Item.skipped ++ .accepted f.encode f :: (scan frames t).1,
        (scan frames t).2) := by
  obtain ⟨u, hu⟩ : ∃ u, f.encode = magic0 :: u := ⟨_, f.encode_eq⟩
  have hfront : scan frames (f.encode ++ t) =
      (.accepted f.encode f :: (scan frames t).1, (scan frames t).2) :=
    scan_of_some (frames_next_encode hf t)
  have hcons : f.encode ++ t = magic0 :: (u ++ t) := by rw [hu]; rfl
  rw [List.append_assoc, hcons, scan_noise hn, ← hcons, hfront]

/-- Dropped bytes are not reported. -/
theorem output_skipped_bytes (d : Bytes) :
    (d.map (Item.skipped (ε := FrameError) (φ := Frame))).filterMap Item.output = [] := by
  rw [List.filterMap_map]
  exact List.filterMap_eq_nil_iff.mpr fun _ _ => rfl

/-- Dropped bytes are discarded as they are. -/
theorem discarded_skipped_bytes (d : Bytes) :
    (d.map (Item.skipped (ε := FrameError) (φ := Frame))).flatMap Item.discarded = d := by
  rw [List.flatMap_map]
  simp

/-- **A poll in the middle of noise and a frame.** When a part of noise and one frame has been
fed and nothing has come out of it yet, a poll brings the frame out if that was all of it, and
leaves nothing behind; else it brings nothing. -/
theorem Receiver.nextFrame_noise_frame {noise fed rest : Bytes} {f : Frame} {rx : Receiver}
    {its : List StreamItem} (hn : PreambleFree noise) (hf : f.LenPlausible)
    (hr : Reads frames fed its rx.buf) (hsilent : its.filterMap Item.output = [])
    (hfed : fed ++ rest = noise ++ f.encode) :
    (rest = [] ∧ rx.nextFrame.1 = some (.ok f) ∧ rx.nextFrame.2.buf = []) ∨
      (rest ≠ [] ∧ rx.nextFrame.1 = none ∧ ∃ its' : List StreamItem,
        Reads frames fed its' rx.nextFrame.2.buf ∧ its'.filterMap Item.output = []) := by
  obtain ⟨polled, hpolled, hout, -, hend⟩ := rx.nextFrame_reads
  have hall := hr.trans hpolled
  have hout' : (its ++ polled).filterMap Item.output = rx.nextFrame.1.toList := by
    rw [List.filterMap_append, hsilent, hout, List.nil_append]
  have hscan : scan frames (noise ++ f.encode) =
      (noise.map Item.skipped ++ [.accepted f.encode f], []) := by
    have := scan_noise_frame hn hf []
    rwa [List.append_nil, scan_of_none frames.next_nil] at this
  obtain ⟨hmax, hstuck⟩ := reads_scan frames (noise ++ f.encode)
  have hlater := hall.append rest
  rw [hfed] at hlater
  obtain ⟨more, hmore, hreads⟩ := hlater.extends_to_maximal hmax hstuck
  rw [hscan] at hmore hreads
  have hframe : rx.nextFrame.1.toList ++ more.filterMap Item.output = [.ok f] := by
    have := congrArg (List.filterMap Item.output) hmore
    rw [List.filterMap_append, List.filterMap_append, output_skipped_bytes, hout'] at this
    exact this.symm
  cases ho : rx.nextFrame.1 with
  | none =>
      rw [ho] at hout' hframe
      refine .inr ⟨?_, rfl, _, hall, hout'⟩
      rintro rfl
      -- the receiver waits at the end of the stream, without the frame
      rw [List.append_nil] at hreads
      rw [hreads.eq_nil_of_stuck (hend ho)] at hframe
      cases hframe
  | some result =>
      rw [ho] at hframe
      obtain ⟨rfl, hnone⟩ := List.cons.inj hframe
      have hdone : more = [] := by
        rcases List.eq_nil_or_concat more with h | ⟨init, it, rfl⟩
        · exact h
        · have hlast : [Item.accepted f.encode f] = [it] := by
            rw [List.concat_eq_append, ← List.append_assoc] at hmore
            exact (List.append_inj' hmore rfl).2
          obtain rfl := List.singleton_inj.mp hlast
          simp at hnone
      rw [hdone] at hreads
      obtain ⟨hbuf, hrest⟩ := List.append_eq_nil_iff.mp hreads.eq_of_nil.symm
      exact .inl ⟨hrest, rfl, hbuf⟩

/-- **The receiver undoes the encoder over noisy streams.** Plausible frames of either
direction, between stretches of noise free of the preamble pair, come out in order and
without an error; exactly the noise is discarded, save that a final first magic byte stays
pending, and nothing else does. -/
theorem extract_noisy_frames (fs : List (Bytes × Frame)) (last : Bytes) (calls : List Call)
    (hnoise : ∀ p ∈ fs, PreambleFree p.1) (hlast : PreambleFree last)
    (hpayload : ∀ p ∈ fs, p.2.payload.length ≤ 1018)
    (hfed : fedBytes calls = noisyStream fs ++ last) :
    (extract calls).results = fs.map (fun p => .ok p.2) ∧
      (extract calls).discarded ++ (extract calls).pending = fs.flatMap Prod.fst ++ last ∧
      (extract calls).pending = if last.getLast? = some magic0 then [magic0] else [] := by
  obtain ⟨dropped, hlscan, hlapp⟩ := scan_last_noise hlast
  have hscan : scan frames (noisyStream fs ++ last) =
      ((fs.flatMap fun p => p.1.map Item.skipped ++ [.accepted p.2.encode p.2]) ++
        dropped.map Item.skipped, if last.getLast? = some magic0 then [magic0] else []) := by
    clear hfed
    induction fs with
    | nil => exact hlscan
    | cons p fs ih =>
        have hp : p.2.LenPlausible := by
          have := hpayload p List.mem_cons_self
          simp only [Frame.LenPlausible, Frame.wireLen, frameOverhead]
          omega
        have ih := ih (fun q hq => hnoise q (List.mem_cons_of_mem p hq))
          (fun q hq => hpayload q (List.mem_cons_of_mem p hq))
        rw [noisyStream, List.flatMap_cons, List.append_assoc,
          scan_noise_frame (hnoise p List.mem_cons_self) hp, ← noisyStream, ih]
        simp
  rw [extract_eq_scan, hfed, hscan, extractionOf]
  refine ⟨?_, ?_, rfl⟩
  · simp only [List.filterMap_append, List.filterMap_flatMap, output_skipped_bytes]
    simp [List.map_eq_flatMap]
  · simp only [List.flatMap_append, List.flatMap_assoc, discarded_skipped_bytes]
    simp [hlapp, List.append_assoc]

/-- `extract_noisy_frames` where the noise ends in a lone first magic byte right before the
preamble and the payload carries the preamble and the terminator. -/
theorem extract_noisy_frames_lone_magic :
    (extract [.feed ([0x00, 0x46] ++ (Frame.mcu 0x80 [0x46, 0xB9, 0x16]).encode),
      .nextFrame, .feed [0x46]]).results = [.ok (Frame.mcu 0x80 [0x46, 0xB9, 0x16])] ∧
    (extract [.feed ([0x00, 0x46] ++ (Frame.mcu 0x80 [0x46, 0xB9, 0x16]).encode),
      .nextFrame, .feed [0x46]]).pending = [0x46] := by
  obtain ⟨hres, -, hpend⟩ :=
    extract_noisy_frames [([0x00, 0x46], Frame.mcu 0x80 [0x46, 0xB9, 0x16])] [0x46]
      [.feed ([0x00, 0x46] ++ (Frame.mcu 0x80 [0x46, 0xB9, 0x16]).encode), .nextFrame,
        .feed [0x46]] (by decide) (by decide) (by decide) (by decide)
  exact ⟨hres, hpend⟩

/-! ### The declarative description of a scan -/

/-- A complete frame with a plausible `LEN` starts at position `p`. -/
def FrameAt (s : Bytes) (p : ℕ) (f : Frame) : Prop :=
  f.LenPlausible ∧ f.encode <+: s.drop p

/-- A plausible header starts at position `p` and its bytes have all arrived, but they fail
validation with `e`. -/
def BadFrameAt (s : Bytes) (p : ℕ) (e : FrameError) : Prop :=
  ∃ len, PlausibleHeader (s.drop p) len ∧ len + 2 ≤ (s.drop p).length ∧
    Frame.decode ((s.drop p).take (len + 2)) = .error e

/-- Position `q` lies inside one of the delivered frames. -/
def Covered (ds : List (ℕ × Frame)) (q : ℕ) : Prop :=
  ∃ d ∈ ds, d.1 ≤ q ∧ q < d.1 + d.2.wireLen

/-- **Leftmost-greedy occurrences**: from `start` on, the next frame is the one at the least
position where a frame starts, and the search goes on at its end; no frame is left that
starts before `c`. -/
inductive LeftmostGreedy (s : Bytes) (c : ℕ) : ℕ → List (ℕ × Frame) → Prop
  | done {start : ℕ} (hnone : ∀ q f, start ≤ q → q < c → ¬ FrameAt s q f) :
      LeftmostGreedy s c start []
  | frame {start p : ℕ} {f : Frame} {ds : List (ℕ × Frame)} (hle : start ≤ p) (hlt : p < c)
      (hat : FrameAt s p f) (hleast : ∀ q g, start ≤ q → q < p → ¬ FrameAt s q g)
      (hrest : LeftmostGreedy s c (p + f.wireLen) ds) : LeftmostGreedy s c start ((p, f) :: ds)

/-- What scanning the stream `s` delivers, reports and consumes: the delivered frames `ds`
and the reported errors `es` with their positions, and the number `c` of bytes consumed. -/
structure StreamSpec (s : Bytes) (c : ℕ) (ds : List (ℕ × Frame)) (es : List (ℕ × FrameError)) :
    Prop where
  /-- the delivered frames are the leftmost-greedy occurrences -/
  greedy : LeftmostGreedy s c 0 ds
  /-- the stream is undecided where the scan stops -/
  undecided : Undecided (s.drop c)
  /-- the scan does not stop inside a delivered frame -/
  not_covered : ¬ Covered ds c
  /-- and it stops at the first such position -/
  decided : ∀ q < c, ¬ Covered ds q → ¬ Undecided (s.drop q)
  /-- a bad frame is reported exactly where it is not part of a delivered one -/
  reported : ∀ q e, (q, e) ∈ es ↔ q < c ∧ ¬ Covered ds q ∧ BadFrameAt s q e
  /-- for one of three reasons -/
  reasons : ∀ q e, (q, e) ∈ es →
    (∃ b, e = .badTerminator b) ∨ (∃ k g, e = .badChecksum k g) ∨ ∃ b, e = .badDir b

/-- The reported results of a reading that starts at position `p`, with their positions. -/
def resultMarks (p : ℕ) (its : List StreamItem) : List (ℕ × Except FrameError Frame) :=
  (marks p its).filterMap fun m => m.2.output.map (m.1, ·)

/-- The frames among the results. -/
def okMarks (ms : List (ℕ × Except FrameError Frame)) : List (ℕ × Frame) :=
  ms.filterMap fun m => match m.2 with
    | .ok f => some (m.1, f)
    | .error _ => none

/-- The errors among the results. -/
def errorMarks (ms : List (ℕ × Except FrameError Frame)) : List (ℕ × FrameError) :=
  ms.filterMap fun m => match m.2 with
    | .ok _ => none
    | .error e => some (m.1, e)

/-- The marks of frames are the marks of results that are frames. -/
theorem mem_okMarks {ms : List (ℕ × Except FrameError Frame)} {q : ℕ} {f : Frame} :
    (q, f) ∈ okMarks ms ↔ (q, .ok f) ∈ ms := by
  simp only [okMarks, List.mem_filterMap, Prod.exists]
  constructor
  · rintro ⟨p, r, hm, h⟩
    cases r with
    | ok g =>
        obtain ⟨rfl, rfl⟩ := Prod.mk.inj (Option.some.inj h)
        exact hm
    | error e => cases h
  · intro hm
    exact ⟨q, .ok f, hm, rfl⟩

/-- The marks of errors are the marks of results that are errors. -/
theorem mem_errorMarks {ms : List (ℕ × Except FrameError Frame)} {q : ℕ} {e : FrameError} :
    (q, e) ∈ errorMarks ms ↔ (q, .error e) ∈ ms := by
  simp only [errorMarks, List.mem_filterMap, Prod.exists]
  constructor
  · rintro ⟨p, r, hm, h⟩
    cases r with
    | ok g => cases h
    | error e' =>
        obtain ⟨rfl, rfl⟩ := Prod.mk.inj (Option.some.inj h)
        exact hm
  · intro hm
    exact ⟨q, .error e, hm, rfl⟩

/-- A result is marked where its item is. -/
theorem mem_resultMarks {its : List StreamItem} {p q : ℕ} {o : Except FrameError Frame} :
    (q, o) ∈ resultMarks p its ↔ ∃ it, (q, it) ∈ marks p its ∧ it.output = some o := by
  simp only [resultMarks, List.mem_filterMap, Option.map_eq_some_iff, Prod.mk.injEq]
  constructor
  · rintro ⟨⟨q', it⟩, hm, o', ho, rfl, rfl⟩
    exact ⟨it, hm, ho⟩
  · rintro ⟨it, hm, ho⟩
    exact ⟨(q, it), hm, o, ho, rfl, rfl⟩

/-- The results in stream order are the results the caller sees. -/
theorem map_snd_resultMarks (p : ℕ) (its : List StreamItem) :
    (resultMarks p its).map Prod.snd = its.filterMap Item.output := by
  have hsnd : ∀ m : ℕ × StreamItem,
      (m.2.output.map (m.1, ·)).map Prod.snd = m.2.output := fun m => by
    cases m.2.output <;> rfl
  rw [resultMarks, List.map_filterMap, funext hsnd]
  conv_rhs => rw [← map_snd_marks p its, List.filterMap_map]
  rfl

/-- The results come in the order of their positions. -/
theorem pairwise_resultMarks {s r : Bytes} {its : List StreamItem}
    (h : Reads frames s its r) (p : ℕ) :
    (resultMarks p its).Pairwise fun a b => a.1 < b.1 := by
  refine List.pairwise_filterMap.mpr ((h.pairwise_marks p).imp ?_)
  rintro ⟨q, it⟩ ⟨q', it'⟩ ⟨-, hlt⟩ b hb b' hb'
  simp only [Option.map_eq_some_iff] at hb hb'
  obtain ⟨-, -, rfl⟩ := hb
  obtain ⟨-, -, rfl⟩ := hb'
  exact hlt

/-- A delivered frame is an accepted item. -/
theorem mem_okMarks_resultMarks {its : List StreamItem} {p q : ℕ} {f : Frame} :
    (q, f) ∈ okMarks (resultMarks p its) ↔ ∃ w, (q, Item.accepted w f) ∈ marks p its := by
  rw [mem_okMarks, mem_resultMarks]
  constructor
  · rintro ⟨it, hm, ho⟩
    cases it with
    | skipped a => cases ho
    | rejected a e => cases ho
    | accepted w g =>
        cases ho
        exact ⟨w, hm⟩
  · rintro ⟨w, hm⟩
    exact ⟨_, hm, rfl⟩

/-- A reported error is a rejected item. -/
theorem mem_errorMarks_resultMarks {its : List StreamItem} {p q : ℕ} {e : FrameError} :
    (q, e) ∈ errorMarks (resultMarks p its) ↔ ∃ b, (q, Item.rejected b e) ∈ marks p its := by
  rw [mem_errorMarks, mem_resultMarks]
  constructor
  · rintro ⟨it, hm, ho⟩
    cases it with
    | skipped a => cases ho
    | rejected b e' =>
        cases ho
        exact ⟨b, hm⟩
    | accepted w g => cases ho
  · rintro ⟨b, hm⟩
    exact ⟨_, hm, rfl⟩

/-- A delivered frame stands before the frames behind it. -/
theorem okMarks_resultMarks_accepted (p : ℕ) (f : Frame) (its : List StreamItem) :
    okMarks (resultMarks p (.accepted f.encode f :: its)) =
      (p, f) :: okMarks (resultMarks (p + f.wireLen) its) := by
  simp [resultMarks, okMarks]

/-! ### Every scan meets the description -/

/-- Where a plausible frame starts, the scanner takes it. -/
theorem FrameAt.next {s : Bytes} {p : ℕ} {f : Frame} (h : FrameAt s p f) :
    ∃ r, frames.next (s.drop p) = some (.accepted f.encode f, r) := by
  obtain ⟨hf, t, ht⟩ := h
  exact ⟨t, by rw [← ht]; exact frames_next_encode hf t⟩

/-- A search may start one position earlier where no frame starts. -/
theorem LeftmostGreedy.extend {s : Bytes} {c p : ℕ} {ds : List (ℕ × Frame)}
    (h : LeftmostGreedy s c (p + 1) ds) (hno : ∀ f, ¬ FrameAt s p f) :
    LeftmostGreedy s c p ds := by
  have hsplit : ∀ q f, (p + 1 ≤ q → ¬ FrameAt s q f) → p ≤ q → ¬ FrameAt s q f := by
    intro q f hq hle
    rcases Nat.eq_or_lt_of_le hle with rfl | hlt
    · exact hno f
    · exact hq hlt
  cases h with
  | done hnone => exact .done fun q f hle hlt => hsplit q f (fun h => hnone q f h hlt) hle
  | frame hle hlt hat hleast hrest =>
      exact .frame (Nat.le_of_succ_le hle) hlt hat
        (fun q g h1 h2 => hsplit q g (fun h => hleast q g h h2) h1) hrest

/-- **A reading delivers the leftmost-greedy occurrences.** The induction is on the reading;
`p` is the position of the unread bytes. -/
theorem leftmostGreedy_of_reads {l r : Bytes} {its : List StreamItem}
    (h : Reads frames l its r) {s : Bytes} {p : ℕ} (hl : l = s.drop p) (hp : p ≤ s.length) :
    LeftmostGreedy s (s.length - r.length) p (okMarks (resultMarks p its)) := by
  induction h generalizing p with
  | nil l =>
      refine .done fun q f hle hlt => ?_
      have := congrArg List.length hl
      rw [List.length_drop] at this
      omega
  | @cons l l' r it its hn hrest ih =>
      obtain ⟨hword, hne⟩ := frames.next_word hn
      have hlen := congrArg List.length hword
      rw [List.length_append, hl, List.length_drop] at hlen
      have hl' : l' = s.drop (p + it.word.length) := by
        rw [← List.drop_drop, ← hl, ← hword, List.drop_left]
      have hrec := ih hl' (by omega)
      have hr := hrest.length_le
      rw [hl] at hn
      cases it with
      | skipped a =>
          refine LeftmostGreedy.extend hrec fun f hf => ?_
          obtain ⟨t, ht⟩ := hf.next
          rw [ht] at hn
          cases hn
      | rejected a e =>
          refine LeftmostGreedy.extend hrec fun f hf => ?_
          obtain ⟨t, ht⟩ := hf.next
          rw [ht] at hn
          cases hn
      | accepted w f =>
          obtain ⟨hf, rfl⟩ := frames_next_accepted hn
          have hpos := f.frameOverhead_le_wireLen
          simp only [Item.word_accepted, Frame.length_encode] at hlen hrec
          have hat : FrameAt s p f := ⟨hf, ⟨l', by rw [← hl]; exact hword⟩⟩
          rw [okMarks_resultMarks_accepted]
          exact .frame Nat.le.refl (by omega) hat (fun q g h1 h2 => by omega) hrec

section

variable {s r : Bytes} {its : List StreamItem}

/-- An accepted item spans the wire image of its frame. -/
theorem length_of_mem_marks (h : Reads frames s its r) {q : ℕ} {w : Bytes} {f : Frame}
    (hm : (q, Item.accepted w f) ∈ marks 0 its) : w.length = f.wireLen := by
  obtain ⟨-, rfl⟩ := frames_next_accepted (h.next_drop hm)
  exact f.length_encode

/-- The item at a position is the next one of the stream from there on. -/
theorem next_of_mem_marks (h : Reads frames s its r) {q : ℕ} {it : StreamItem}
    (hm : (q, it) ∈ marks 0 its) : ∃ t, frames.next (s.drop q) = some (it, t) :=
  ⟨_, h.next_drop hm⟩

/-- A consumed position outside the delivered frames carries an item. -/
theorem mem_marks_of_not_covered (h : Reads frames s its r) {q : ℕ} (hq : q < s.length - r.length)
    (hnc : ¬ Covered (okMarks (resultMarks 0 its)) q) : ∃ it, (q, it) ∈ marks 0 its := by
  have hle := h.length_le
  rcases h.mem_marks_or_inside (p := 0) (Nat.zero_le q) (by omega) with hm |
    ⟨p, w, f, hm, h1, h2⟩
  · exact hm
  · exact absurd ⟨(p, f), mem_okMarks_resultMarks.mpr ⟨w, hm⟩, Nat.le_of_lt h1,
      length_of_mem_marks h hm ▸ h2⟩ hnc

/-- A rejected byte is not part of a delivered frame. -/
theorem not_covered_of_rejected (h : Reads frames s its r) {q : ℕ} {b : UInt8} {e : FrameError}
    (hm : (q, Item.rejected b e) ∈ marks 0 its) :
    ¬ Covered (okMarks (resultMarks 0 its)) q := by
  rintro ⟨⟨p, f⟩, hd, h1, h2⟩
  obtain ⟨w, hm'⟩ := mem_okMarks_resultMarks.mp hd
  have hw := length_of_mem_marks h hm'
  rcases h.marks_disjoint hm hm' with hlt | hlt | ⟨-, heq⟩
  · simp only [Item.word_rejected, List.length_singleton] at hlt h1
    omega
  · simp only [Item.word_accepted] at hlt h2
    omega
  · cases heq

/-- An error is reported exactly at the consumed bad frames that are not part of a delivered
one. -/
theorem mem_errorMarks_iff (h : Reads frames s its r) {q : ℕ} {e : FrameError} :
    (q, e) ∈ errorMarks (resultMarks 0 its) ↔
      q < s.length - r.length ∧ ¬ Covered (okMarks (resultMarks 0 its)) q ∧ BadFrameAt s q e := by
  have hle := h.length_le
  rw [mem_errorMarks_resultMarks]
  constructor
  · rintro ⟨b, hm⟩
    have hend := h.mark_end_le hm
    simp only [Item.word_rejected, List.length_singleton] at hend
    exact ⟨by omega, not_covered_of_rejected h hm,
      verdict_eq_reject_iff.mp (frames.next_rejected (h.next_drop hm))⟩
  · rintro ⟨hq, hnc, hbad⟩
    obtain ⟨it, hm⟩ := mem_marks_of_not_covered h hq hnc
    obtain ⟨t, ht⟩ := next_of_mem_marks h hm
    have hv : frames.verdict (s.drop q) = .reject e := verdict_eq_reject_iff.mpr hbad
    cases hdrop : s.drop q with
    | nil =>
        rw [hdrop] at ht
        cases ht
    | cons b l =>
        rw [hdrop] at ht hv
        rw [frames.next_of_reject hv] at ht
        obtain ⟨rfl, -⟩ := Prod.mk.inj (Option.some.inj ht)
        exact ⟨b, hm⟩

/-- **Every maximal reading meets the description.** -/
theorem streamSpec_of_reads (h : Reads frames s its r) (hstuck : frames.next r = none) :
    StreamSpec s (s.length - r.length) (okMarks (resultMarks 0 its))
      (errorMarks (resultMarks 0 its)) := by
  have hle := h.length_le
  refine ⟨leftmostGreedy_of_reads h rfl (Nat.zero_le _), ?_, ?_, ?_,
    fun q e => mem_errorMarks_iff h, ?_⟩
  · rw [h.drop_eq]
    exact frames_next_eq_none_iff.mp hstuck
  · rintro ⟨⟨p, f⟩, hd, h1, h2⟩
    obtain ⟨w, hm⟩ := mem_okMarks_resultMarks.mp hd
    have hend := h.mark_end_le hm
    have hw := length_of_mem_marks h hm
    simp only [Item.word_accepted] at *
    omega
  · intro q hq hnc hund
    obtain ⟨it, hm⟩ := mem_marks_of_not_covered h hq hnc
    obtain ⟨t, ht⟩ := next_of_mem_marks h hm
    rw [frames_next_eq_none_iff.mpr hund] at ht
    cases ht
  · intro q e he
    obtain ⟨b, hm⟩ := mem_errorMarks_resultMarks.mp he
    exact error_of_verdict_reject (frames.next_rejected (h.next_drop hm))

end

/-- **The description of an extraction**: the results a caller sees, in order, are the
delivered frames and reported errors of the stream, in the order of their positions, and
what stays pending is what has not been consumed. -/
theorem extract_streamSpec (calls : List Call) :
    ∃ ms : List (ℕ × Except FrameError Frame),
      (extract calls).results = ms.map Prod.snd ∧
      ms.Pairwise (fun a b => a.1 < b.1) ∧
      (extract calls).pending.length ≤ (fedBytes calls).length ∧
      (extract calls).pending =
        (fedBytes calls).drop ((fedBytes calls).length - (extract calls).pending.length) ∧
      StreamSpec (fedBytes calls) ((fedBytes calls).length - (extract calls).pending.length)
        (okMarks ms) (errorMarks ms) := by
  obtain ⟨hr, hstuck⟩ := reads_scan frames (fedBytes calls)
  rw [extract_eq_scan]
  exact ⟨resultMarks 0 (scan frames (fedBytes calls)).1, (map_snd_resultMarks 0 _).symm,
    pairwise_resultMarks hr 0, hr.length_le, hr.drop_eq.symm, streamSpec_of_reads hr hstuck⟩

/-- A frame at `p` that no frame starting earlier reaches past, and that the scan gets to,
is delivered. -/
theorem LeftmostGreedy.mem_of_isolated {s : Bytes} {c start p : ℕ} {ds : List (ℕ × Frame)}
    {f : Frame} (h : LeftmostGreedy s c start ds) (hstart : start ≤ p) (hp : p < c)
    (hat : FrameAt s p f) (hiso : ∀ q g, q < p → FrameAt s q g → q + g.wireLen ≤ p) :
    (p, f) ∈ ds := by
  induction h with
  | done hnone => exact absurd hat (hnone p f hstart hp)
  | @frame start q g ds hle hlt hat' hleast hrest ih =>
      rcases Nat.lt_trichotomy q p with hqp | rfl | hpq
      · exact List.mem_cons_of_mem _ (ih (hiso q g hqp hat'))
      · obtain ⟨t, ht⟩ := hat.next
        obtain ⟨t', ht'⟩ := hat'.next
        rw [ht] at ht'
        obtain ⟨heq, -⟩ := Prod.mk.inj (Option.some.inj ht')
        obtain ⟨-, rfl⟩ := Item.accepted.inj heq
        exact List.mem_cons_self
      · exact absurd hat (hleast p f hstart hpq)

/-- Every delivered frame starts before the end of the consumed bytes. -/
theorem LeftmostGreedy.lt_of_mem {s : Bytes} {c start : ℕ} {ds : List (ℕ × Frame)}
    (h : LeftmostGreedy s c start ds) {d : ℕ × Frame} (hd : d ∈ ds) :
    d.1 < c ∧ FrameAt s d.1 d.2 := by
  induction h with
  | done => cases hd
  | frame hle hlt hat hleast hrest ih =>
      rcases List.mem_cons.mp hd with rfl | hd
      · exact ⟨hlt, hat⟩
      · exact ih hd

/-- **The receiver loses a valid frame only to an overlapping earlier one.** For every
stream, cut and polled in any way: the delivered frames, the reported errors and the bytes
consumed are those of the declarative description; and a plausible frame between `n` and
`t` that no frame starting in `n` reaches into is delivered exactly when the bytes before
it have all been decided. -/
theorem delivers_leftmost_greedy (calls : List Call) :
    ∃ ms : List (ℕ × Except FrameError Frame),
      (extract calls).results = ms.map Prod.snd ∧
      ms.Pairwise (fun a b => a.1 < b.1) ∧
      (extract calls).pending.length ≤ (fedBytes calls).length ∧
      (extract calls).pending =
        (fedBytes calls).drop ((fedBytes calls).length - (extract calls).pending.length) ∧
      StreamSpec (fedBytes calls) ((fedBytes calls).length - (extract calls).pending.length)
        (okMarks ms) (errorMarks ms) ∧
      ∀ (n t : Bytes) (f : Frame), fedBytes calls = n ++ f.encode ++ t → f.LenPlausible →
        (∀ p g, p < n.length → FrameAt (fedBytes calls) p g → p + g.wireLen ≤ n.length) →
        ((n.length, f) ∈ okMarks ms ↔
          n.length < (fedBytes calls).length - (extract calls).pending.length) := by
  obtain ⟨ms, hres, hsorted, hle, hdrop, hspec⟩ := extract_streamSpec calls
  refine ⟨ms, hres, hsorted, hle, hdrop, hspec, ?_⟩
  intro n t f hs hf hiso
  have hat : FrameAt (fedBytes calls) n.length f :=
    ⟨hf, ⟨t, by rw [hs, List.append_assoc, List.drop_left]⟩⟩
  exact ⟨fun hm => (hspec.greedy.lt_of_mem hm).1,
    fun hlt => hspec.greedy.mem_of_isolated (Nat.zero_le _) hlt hat hiso⟩

/-! ### A complete reply behind noise -/

/-- The frame `f` at `p` is the only complete valid frame anywhere in the stream. -/
def OnlyFrame (s : Bytes) (p : ℕ) (f : Frame) : Prop :=
  ∀ q g, g.encode <+: s.drop q → q = p ∧ g = f

/-- `OnlyFrame` of a given stream is checked by decoding each of its substrings. -/
theorem onlyFrame_of_decode {s : Bytes} {p : ℕ} {f : Frame}
    (h : ∀ q < s.length, ∀ k ≤ s.length, ∀ g ∈ (Frame.decode ((s.drop q).take k)).toOption,
      q = p ∧ g = f) : OnlyFrame s p f := by
  intro q g hg
  have hlen := hg.length_le
  have hpos := g.frameOverhead_le_wireLen
  rw [Frame.length_encode, List.length_drop] at hlen
  have htake : (s.drop q).take g.wireLen = g.encode := by
    rw [← Frame.length_encode]
    exact (List.prefix_iff_eq_take.mp hg).symm
  refine h q (by omega) g.wireLen (by omega) g ?_
  rw [htake, Frame.decode_encode]
  rfl

/-- Where no header in the noise reaches past the frame behind it, what does not decide lies
behind the first byte of that frame. -/
theorem lt_of_undecided {n : Bytes} {f : Frame} {c : ℕ} (hf : f.LenPlausible)
    (hno : ∀ p < n.length, ∀ len, PlausibleHeader ((n ++ f.encode).drop p) len →
      p + len + 2 ≤ (n ++ f.encode).length)
    (hund : Undecided ((n ++ f.encode).drop c)) : n.length < c := by
  by_contra hcn
  have hpos := f.frameOverhead_le_wireLen
  have hlen : (n ++ f.encode).length = n.length + f.wireLen := by
    rw [List.length_append, Frame.length_encode]
  have hclen : ((n ++ f.encode).drop c).length = n.length + f.wireLen - c := by
    rw [List.length_drop, hlen]
  rcases hund with h | h | ⟨-, h⟩ | ⟨len, hhead, h⟩
  · rw [h, List.length_nil] at hclen
    omega
  · rw [h, List.length_singleton] at hclen
    omega
  · omega
  · rcases Nat.lt_or_ge c n.length with hcn' | hge
    · have := hno c hcn' len hhead
      omega
    · obtain rfl : c = n.length := by omega
      have hat : FrameAt (n ++ f.encode) n.length f := ⟨hf, ⟨[], by rw [List.drop_left]; simp⟩⟩
      obtain ⟨t, ht⟩ := hat.next
      rw [frames_next_eq_none_iff.mpr (.inr (.inr (.inr ⟨len, hhead, h⟩)))] at ht
      cases ht

/-- **When a complete reply behind noise is held back.** Let `f` be the only valid frame in
`n ++ encode f`. With no further bytes arriving, `f` comes out exactly when no position in
the noise carries a plausible header whose declared extent reaches past the end of `f`. -/
theorem complete_reply_delivered_iff (calls : List Call) (n : Bytes) (f : Frame)
    (hf : f.LenPlausible) (honly : OnlyFrame (n ++ f.encode) n.length f)
    (hfed : fedBytes calls = n ++ f.encode) :
    .ok f ∈ (extract calls).results ↔
      ∀ p < n.length, ∀ len, PlausibleHeader ((n ++ f.encode).drop p) len →
        p + len + 2 ≤ (n ++ f.encode).length := by
  obtain ⟨ms, hres, -, hle, -, hspec⟩ := extract_streamSpec calls
  generalize hc : (fedBytes calls).length - (extract calls).pending.length = c at hspec
  rw [hfed] at hspec hle hc
  have hlen : (n ++ f.encode).length = n.length + f.wireLen := by
    rw [List.length_append, Frame.length_encode]
  have hat : FrameAt (n ++ f.encode) n.length f := ⟨hf, ⟨[], by rw [List.drop_left]; simp⟩⟩
  have hdelivered : ∀ d ∈ okMarks ms, d = (n.length, f) := fun d hd => by
    obtain ⟨-, -, hpre⟩ := hspec.greedy.lt_of_mem hd
    obtain ⟨h1, h2⟩ := honly d.1 d.2 hpre
    exact Prod.ext h1 h2
  constructor
  · intro hm p hp len hhead
    by_contra hlong
    rw [hres] at hm
    obtain ⟨⟨q, o⟩, hm, ho⟩ := List.mem_map.mp hm
    have hd : (q, f) ∈ okMarks ms := mem_okMarks.mpr (ho ▸ hm)
    obtain rfl : q = n.length := (Prod.mk.inj (hdelivered _ hd)).1
    have hnc := (hspec.greedy.lt_of_mem hd).1
    refine hspec.decided p (by omega) ?_ (.inr (.inr (.inr ⟨len, hhead, ?_⟩)))
    · rintro ⟨d, hd', h1, -⟩
      obtain rfl := hdelivered d hd'
      omega
    · rw [List.length_drop]
      omega
  · intro hno
    have hlt : n.length < c := lt_of_undecided hf hno hspec.undecided
    have hd := hspec.greedy.mem_of_isolated (Nat.zero_le _) hlt hat
      fun q g hq hg => absurd (honly q g hg.2).1 (by omega)
    rw [hres]
    exact List.mem_map.mpr ⟨_, mem_okMarks.mp hd, rfl⟩

/-- `complete_reply_delivered_iff` behind a stray byte and a fake preamble of small extent. -/
theorem complete_reply_delivered_iff_stray :
    .ok (Frame.mcu 0x80 []) ∈
      (extract [.feed ([0x00, 0x46, 0xB9, 0x68, 0x00, 0x06] ++
        (Frame.mcu 0x80 []).encode)]).results := by
  refine (complete_reply_delivered_iff _ [0x00, 0x46, 0xB9, 0x68, 0x00, 0x06]
    (Frame.mcu 0x80 []) (by decide) (onlyFrame_of_decode (by decide)) rfl).mpr ?_
  intro p hp len hhead
  obtain ⟨dir, hi, lo, tail, heq, rfl, -⟩ := hhead
  have hp6 : p < 6 := hp
  rcases Nat.decEq p 1 with hne | rfl
  · interval_cases p
    all_goals first
      | exact absurd rfl hne
      | exact absurd (List.cons.inj heq).1 (by decide)
  · have hhi : some 0x00 = some hi := congrArg (·[3]?) heq
    have hlo : some 0x06 = some lo := congrArg (·[4]?) heq
    cases hhi
    cases hlo
    decide

/-- **A fake preamble in the noise holds a complete reply back.** Five noise bytes that
declare a frame of `LEN` 1024 stand before a link-test ack; the ack is complete and is the
only valid frame of the stream, and no poll returns it. -/
theorem complete_reply_held_back :
    ¬ ∀ (calls : List Call) (n : Bytes) (f : Frame), f.LenPlausible →
      OnlyFrame (n ++ f.encode) n.length f → fedBytes calls = n ++ f.encode →
        .ok f ∈ (extract calls).results := by
  intro h
  have hm := h [.feed ([0x46, 0xB9, 0x68, 0x04, 0x00] ++ (Frame.mcu 0x80 []).encode)]
    [0x46, 0xB9, 0x68, 0x04, 0x00] (Frame.mcu 0x80 []) (by decide)
    (onlyFrame_of_decode (by decide)) rfl
  revert hm
  decide +kernel

end Stcbsl
