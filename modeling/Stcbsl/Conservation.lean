import Stcbsl.Stream

/-!
# The Receiver Conserves Bytes

Every byte fed to a receiver is discarded, belongs to a delivered frame, or is still pending,
and the order is kept: the stream fed so far is the discarded bytes with the wire images of the
delivered frames put between them, each at the place where the discarding stood when the frame
came out, and the pending bytes behind. A frame that fails validation gives up its first byte
and nothing else, so that the bytes pushed back are counted once.

## Interleavings

The caller sees two streams, the discarded bytes and the frames, and the law puts them together
again. `interleave` does so from the places of the words: each frame comes with the number of
bytes that had been discarded when it was delivered. This number is read off the calls, where the
discarded bytes that the caller has taken by then count as well as those that the receiver still
holds, so that it does not matter when they are taken.

## Main results

* `Receiver.nextFrame_ok_conserves`, `Receiver.nextFrame_conserves` — what one poll does to the
  buffer and to the discarded bytes.
* `Receiver.Polled.Conserved.call` — one call of any kind conserves bytes.
* `receiver_conserves_bytes` — every sequence of calls does.
-/

namespace Stcbsl

open Resync

/-! ### Interleavings -/

/-- The symbols `d`, from position `placed` on, with words put between them: `(n, w)` puts `w`
behind the first `n` of the symbols. -/
def interleave {α : Type} (d : List α) (placed : ℕ) : List (ℕ × List α) → List α
  | [] => d.drop placed
  | (n, w) :: ws => (d.drop placed).take (n - placed) ++ w ++ interleave d n ws

/-- The places of the words follow one another, and lie within the first `m` symbols. -/
structure Placed {α : Type} (m : ℕ) (ws : List (ℕ × α)) : Prop where
  sorted : ws.Pairwise fun a b => a.1 ≤ b.1
  le : ∀ w ∈ ws, w.1 ≤ m

section

variable {α : Type}

/-- No words are placed within any length. -/
theorem placed_nil (m : ℕ) : Placed m ([] : List (ℕ × α)) :=
  ⟨.nil, fun _ hw => by cases hw⟩

/-- Words placed in a stream are placed in a longer one. -/
theorem Placed.mono {m n : ℕ} {ws : List (ℕ × α)} (h : Placed m ws) (hle : m ≤ n) :
    Placed n ws :=
  ⟨h.sorted, fun w hw => Nat.le_trans (h.le w hw) hle⟩

/-- A further word, at the end. -/
theorem Placed.concat {m : ℕ} {ws : List (ℕ × α)} (h : Placed m ws) (w : α) :
    Placed m (ws ++ [(m, w)]) := by
  refine ⟨List.pairwise_append.mpr ⟨h.sorted, List.pairwise_singleton _ _, ?_⟩, ?_⟩
  · intro a ha b hb
    obtain rfl := List.mem_singleton.mp hb
    exact h.le a ha
  · intro a ha
    rcases List.mem_append.mp ha with ha | ha
    · exact h.le a ha
    · obtain rfl := List.mem_singleton.mp ha
      exact Nat.le_refl m

/-- Further symbols come behind everything that has been placed. -/
theorem interleave_append {d : List α} {p : ℕ} {ws : List (ℕ × List α)} (hp : p ≤ d.length)
    (hle : ∀ w ∈ ws, w.1 ≤ d.length) (e : List α) :
    interleave (d ++ e) p ws = interleave d p ws ++ e := by
  induction ws generalizing p with
  | nil => exact List.drop_append_of_le_length hp
  | cons w ws ih =>
      obtain ⟨hn, hws⟩ := List.forall_mem_cons.mp hle
      have htake : ((d ++ e).drop p).take (w.1 - p) = (d.drop p).take (w.1 - p) := by
        rw [List.drop_append_of_le_length hp,
          List.take_append_of_le_length (by rw [List.length_drop]; omega)]
      rw [interleave, interleave, htake, ih hn hws, List.append_assoc (_ ++ _)]

/-- A further word behind all symbols comes last. -/
theorem interleave_concat {d : List α} {p : ℕ} (ws : List (ℕ × List α)) (w : List α) :
    interleave d p (ws ++ [(d.length, w)]) = interleave d p ws ++ w := by
  induction ws generalizing p with
  | nil => simp [interleave, List.take_of_length_le]
  | cons v ws ih => simp [interleave, ih]

end

/-! ### One poll -/

namespace Receiver

/-- A poll that delivers no frame moves bytes from the front of the buffer to the discarded
ones. -/
theorem nextFrame_conserves {rx rx' : Receiver} {o : Option (Except FrameError Frame)}
    (h : rx.nextFrame = (o, rx')) (ho : ∀ f, o ≠ some (.ok f)) :
    ∃ d, rx.buf = d ++ rx'.buf ∧ rx'.discarded = rx.discarded ++ d := by
  obtain ⟨its, hr, hout, hdisc, -⟩ := rx.nextFrame_reads
  rw [h] at hr hout hdisc
  refine ⟨_, (Passes.discarded_append hr ?_).symm, hdisc⟩
  intro it hit f hf
  have hmem : .ok f ∈ its.filterMap Item.output := List.mem_filterMap.mpr ⟨it, hit, hf⟩
  rw [hout] at hmem
  exact ho f (Option.mem_toList.mp hmem)

/-- **A poll that delivers a frame** moves the bytes in front of it to the discarded ones, and
takes its wire image. -/
theorem nextFrame_ok_conserves {rx rx' : Receiver} {f : Frame}
    (h : rx.nextFrame = (some (.ok f), rx')) :
    ∃ d, rx.buf = d ++ f.encode ++ rx'.buf ∧ rx'.discarded = rx.discarded ++ d := by
  obtain ⟨hf, its, hpass, hits⟩ := nextFrame_ok h
  obtain ⟨its', hr, -, hdisc, -⟩ := rx.nextFrame_reads
  rw [h] at hr hdisc
  have hall := hpass.trans (.single (frames_next_encode hf rx'.buf))
  rw [hr.eq_of_rest hall, List.flatMap_append] at hdisc
  refine ⟨its.flatMap Item.discarded, ?_, by simpa using hdisc⟩
  rw [List.append_assoc, Passes.discarded_append hpass hits]

/-! ### Every sequence of calls -/

/-- Everything discarded so far: what has been taken, and what the receiver still holds. -/
def Polled.discardedSoFar (s : Polled) : Bytes := s.taken ++ s.rx.discarded

/-- The frame a call delivers, with the number of bytes discarded before it came out. -/
def Polled.delivered (s : Polled) : Call → List (ℕ × Frame)
  | .feed _ => []
  | .nextFrame =>
      match s.rx.nextFrame.1 with
      | some (.ok f) => [((s.call .nextFrame).discardedSoFar.length, f)]
      | _ => []
  | .takeDiscarded => []

/-- The frames delivered by a sequence of calls, in order. -/
def deliveries (s : Polled) : List Call → List (ℕ × Frame)
  | [] => []
  | c :: calls => s.delivered c ++ deliveries (s.call c) calls

/-- The wire images of delivered frames, at the places of the frames. -/
def images (ds : List (ℕ × Frame)) : List (ℕ × Bytes) := ds.map fun d => (d.1, d.2.encode)

/-- **The conservation invariant**: of the bytes fed so far, the frames `ds` have been
delivered, each at its place between the discarded bytes, and the buffer holds the rest. -/
structure Polled.Conserved (s : Polled) (fed : Bytes) (ds : List (ℕ × Frame)) : Prop where
  fed_eq : fed = interleave s.discardedSoFar 0 (images ds) ++ s.rx.buf
  placed : Placed s.discardedSoFar.length (images ds)
  results : s.results.filterMap Except.toOption = ds.map Prod.snd

/-- Before anything is fed, the invariant holds of nothing delivered. -/
theorem Polled.conserved_start : Polled.start.Conserved [] [] where
  fed_eq := rfl
  placed := placed_nil _
  results := rfl

/-- Bytes that are discarded come behind everything before. -/
theorem Polled.Conserved.discard {s s' : Polled} {fed d : Bytes} {ds : List (ℕ × Frame)}
    (h : s.Conserved fed ds) (hbuf : s.rx.buf = d ++ s'.rx.buf)
    (hdisc : s'.discardedSoFar = s.discardedSoFar ++ d)
    (hres : s'.results.filterMap Except.toOption = s.results.filterMap Except.toOption) :
    s'.Conserved fed ds where
  fed_eq := by
    rw [hdisc, interleave_append (Nat.zero_le _) h.placed.le, List.append_assoc, ← hbuf]
    exact h.fed_eq
  placed := h.placed.mono (by rw [hdisc, List.length_append]; omega)
  results := by rw [hres, h.results]

/-- A frame that is delivered comes behind everything discarded before. -/
theorem Polled.Conserved.deliver {s s' : Polled} {fed : Bytes} {ds : List (ℕ × Frame)} {f : Frame}
    (h : s.Conserved fed ds) (hbuf : s.rx.buf = f.encode ++ s'.rx.buf)
    (hdisc : s'.discardedSoFar = s.discardedSoFar)
    (hres : s'.results.filterMap Except.toOption =
      s.results.filterMap Except.toOption ++ [f]) :
    s'.Conserved fed (ds ++ [(s'.discardedSoFar.length, f)]) where
  fed_eq := by
    rw [images, List.map_append, List.map_singleton, interleave_concat, List.append_assoc, hdisc,
      ← hbuf]
    exact h.fed_eq
  placed := by
    rw [images, List.map_append, List.map_singleton]
    exact hdisc ▸ h.placed.concat f.encode
  results := by rw [hres, h.results, List.map_append, List.map_singleton]

/-- A poll that delivers no frame. -/
theorem Polled.Conserved.silent {s : Polled} {fed : Bytes} {ds : List (ℕ × Frame)}
    (h : s.Conserved fed ds) {rx' : Receiver} {o : Option (Except FrameError Frame)}
    (hn : s.rx.nextFrame = (o, rx')) (ho : ∀ f, o ≠ some (.ok f)) :
    (s.call .nextFrame).Conserved fed (ds ++ s.delivered .nextFrame) := by
  obtain ⟨d, hbuf, hdisc⟩ := nextFrame_conserves hn ho
  have hcall : s.call .nextFrame = { s with rx := rx', results := s.results ++ o.toList } := by
    rw [Polled.call, hn]
  have hnone : s.delivered .nextFrame = [] := by
    rw [Polled.delivered, hn]
    rcases o with _ | e | f
    · rfl
    · rfl
    · exact absurd rfl (ho f)
  have hres : (s.results ++ o.toList).filterMap Except.toOption =
      s.results.filterMap Except.toOption := by
    rcases o with _ | e | f
    · simp
    · simp [Except.toOption]
    · exact absurd rfl (ho f)
  rw [hnone, List.append_nil, hcall]
  exact h.discard hbuf (by simp [discardedSoFar, hdisc]) hres

/-- A poll that delivers a frame: first the bytes in front of it, then the frame. -/
theorem Polled.Conserved.frame {s : Polled} {fed : Bytes} {ds : List (ℕ × Frame)}
    (h : s.Conserved fed ds) {rx' : Receiver} {f : Frame}
    (hn : s.rx.nextFrame = (some (.ok f), rx')) :
    (s.call .nextFrame).Conserved fed (ds ++ s.delivered .nextFrame) := by
  obtain ⟨d, hbuf, hdisc⟩ := nextFrame_ok_conserves hn
  have hcall : s.call .nextFrame = { s with rx := rx', results := s.results ++ [.ok f] } := by
    rw [Polled.call, hn]
    rfl
  have hfront : ({ s with rx := { buf := f.encode ++ rx'.buf, discarded := rx'.discarded } } :
      Polled).Conserved fed ds :=
    h.discard (d := d) (by rw [hbuf, List.append_assoc]) (by simp [discardedSoFar, hdisc]) rfl
  rw [Polled.delivered, hn, hcall]
  exact hfront.deliver rfl rfl (by simp [Except.toOption])

/-- **One call of any kind conserves bytes.** -/
theorem Polled.Conserved.call {s : Polled} {fed : Bytes} {ds : List (ℕ × Frame)}
    (h : s.Conserved fed ds) (c : Call) :
    (s.call c).Conserved (fed ++ c.fed) (ds ++ s.delivered c) := by
  cases c with
  | feed bytes =>
      rw [Polled.delivered, List.append_nil]
      refine ⟨?_, h.placed, h.results⟩
      rw [h.fed_eq, List.append_assoc]
      rfl
  | takeDiscarded =>
      rw [Polled.delivered, Call.fed, List.append_nil, List.append_nil]
      refine h.discard (d := []) rfl ?_ rfl
      simp [discardedSoFar, Polled.call, takeDiscarded]
  | nextFrame =>
      rw [Call.fed, List.append_nil]
      rcases hn : s.rx.nextFrame with ⟨_ | e | f, rx'⟩
      · exact h.silent hn (by simp)
      · exact h.silent hn (by simp)
      · exact h.frame hn

/-- A run of calls conserves bytes. -/
theorem Polled.Conserved.run {s : Polled} {fed : Bytes} {ds : List (ℕ × Frame)}
    (h : s.Conserved fed ds) (calls : List Call) :
    (calls.foldl Polled.call s).Conserved (fed ++ fedBytes calls) (ds ++ deliveries s calls) := by
  induction calls generalizing s fed ds with
  | nil =>
      rw [fedBytes, List.flatMap_nil, deliveries, List.append_nil, List.append_nil]
      exact h
  | cons c calls ih =>
      have := ih (h.call c)
      rwa [List.append_assoc, List.append_assoc] at this

end Receiver

open Receiver

/-- **The receiver conserves bytes.** For every sequence of calls on a new receiver, the stream
fed is the discarded bytes, with the wire image of each delivered frame put behind exactly
those discarded before the frame came out, followed by the pending bytes. -/
theorem receiver_conserves_bytes (calls : List Receiver.Call) :
    let s := calls.foldl Polled.call Polled.start
    let ds := deliveries Polled.start calls
    fedBytes calls = interleave (s.taken ++ s.rx.discarded) 0 (images ds) ++ s.rx.buf ∧
      ds.Pairwise (fun a b => a.1 ≤ b.1) ∧
      (∀ d ∈ ds, d.1 ≤ (s.taken ++ s.rx.discarded).length) ∧
      ds.map Prod.snd = s.results.filterMap Except.toOption := by
  intro s ds
  have h : s.Conserved (fedBytes calls) ds := by
    simpa using Polled.conserved_start.run calls
  refine ⟨h.fed_eq, ?_, ?_, h.results.symm⟩
  · have hsorted := h.placed.sorted
    rw [images, List.pairwise_map] at hsorted
    exact hsorted
  · intro d hd
    exact h.placed.le _ (List.mem_map_of_mem hd)

end Stcbsl
