import Stcbsl.RunReport

/-!
# Fresh Replies

The driver keeps its receiver from one step to the next and replaces it only when the rate
changes. So the receiver may still hold bytes of an earlier read when a request is sent,
and a frame that begins in these bytes answers the request before it was written: a
duplicated ack acknowledges two exchanges.

That is the only way. The replies of a run are fresh exactly when no frame ever begins in
the bytes held when a request was handed out.

## The two conditions

`Fresh` is asked of each reply that is passed on: its wire image lies in what was read since the
request was written. `NoneBegun` says nothing about the reply. It speaks of the bytes that the
receiver held when the request was handed out, followed by those read since, and asks that no
frame begins in the held ones. Both are guards of the events of a run, and a run that stops
anywhere is held to them up to there.

The two agree reply by reply because a receiver takes the leftmost frame (`Heard.located`): a
frame that begins in the held bytes is taken before any other, and one that is taken and does
not begin there has arrived whole since.

## Main results

* `Heard.suffix_iff` — what was heard was read in full behind the request, or had begun before.
* `fresh_iff_noneBegun` — the replies of a run are fresh exactly when no frame begins in
  held bytes, for every session, wire and clock.
* `link_test_not_fresh` — four link tests pass on three fresh acks.
-/

namespace Stcbsl.Driver

open Traced Stc89

variable {drain : DrainConfig} {s₀ s : Session} {rx : Receiver} {h : List Event}

/-- **A fresh reply**: the frame passed to `on_reply` for step `k` lies in what was read
since the frame of that step was written. -/
def Fresh (steps : List Step) (h : List Event) : Event → Prop
  | .session (.reply k f _) held =>
      ∃ step ∈ steps[k]?, (lastRequest h).map Prod.fst = some (step.send k) ∧
        written (since Event.isRequest h) = [step.frame.encode] ∧
        f.encode ++ held <:+ readBytes (since Event.isWrite h)
  | _ => True

instance (steps : List Step) (h : List Event) : DecidablePred (Fresh steps h)
  | .session (.reply k f _) held =>
      inferInstanceAs (Decidable (∃ step ∈ steps[k]?,
        (lastRequest h).map Prod.fst = some (step.send k) ∧
          written (since Event.isRequest h) = [step.frame.encode] ∧
          f.encode ++ held <:+ readBytes (since Event.isWrite h)))
  | .session (.action _) _ => isTrue trivial
  | .wire _ _ | .read _ | .now _ | .sleep _ | .log _ => isTrue trivial

/-- When a reply is passed on, and the rate was not changed for its request: in the bytes
held when the request was handed out, followed by those read since, no frame begins before
the bytes read. -/
def NoneBegun (h : List Event) : Event → Prop
  | .session (.reply _ _ _) _ =>
      ∀ x held, lastRequest h = some (x, held) →
        x.retuneBeforeSend = none → x.retuneAfterSend = none →
        ∀ i < held.length, ∀ f : Frame, f.LenPlausible →
          ¬ f.encode <+: (held ++ readBytes (since Event.isRequest h)).drop i
  | _ => True

/-! ### One reply -/

/-- The frame heard was read in full after the wait began exactly when no frame begins in
what the receiver held before. -/
theorem Heard.suffix_iff {rx' : Receiver} {t : List Event} {f : Frame} (hh : Heard rx t f rx') :
    f.encode ++ rx'.buf <:+ readBytes t ↔
      ∀ i < rx.buf.length, ∀ g : Frame, g.LenPlausible →
        ¬ g.encode <+: (rx.buf ++ readBytes t).drop i := by
  obtain ⟨d, hd, hfirst⟩ := hh.located
  rw [List.append_assoc] at hd
  have hlen := congrArg List.length hd
  rw [List.length_append, List.length_append] at hlen
  constructor
  · intro hsuf i hi
    have := hsuf.length_le
    exact hfirst i (by omega)
  · intro hnone
    have hle : rx.buf.length ≤ d.length := by
      by_contra hlt
      refine hnone d.length (Nat.lt_of_not_le hlt) f hh.lenPlausible ?_
      rw [hd, List.drop_left]
      exact List.prefix_append _ _
    refine List.suffix_of_suffix_length_le ?_ (List.suffix_append rx.buf _) (by omega)
    rw [hd]
    exact List.suffix_append _ _

/-- What has been read since the request was written. -/
theorem readBytes_since_write (hlt : s.index < s.steps.length) (rx : Receiver)
    (h : List Event) {t : List Event} (hq : Quiet t) :
    readBytes (since Event.isWrite (h ++ asked s hlt rx :: (script drain (request s hlt) ++ t))) =
      readBytes t := by
  obtain ⟨-, hbehind⟩ := idle_script drain (request s hlt)
  have hsplit : h ++ asked s hlt rx :: (script drain (request s hlt) ++ t) =
      (h ++ asked s hlt rx :: (scriptBefore (request s hlt) ++
        [.log (.step (request s hlt).label (request s hlt).bytes)])) ++
          .wire (.writeAll (request s hlt).bytes) (.ok ()) ::
            (.wire .flush (.ok ()) :: scriptAfter drain (request s hlt) ++ t) := by
    rw [script_eq]
    simp
  rw [hsplit, since_hit rfl ?_, readBytes_append, hbehind.readBytes, List.nil_append]
  intro e he
  rcases List.mem_append.mp he with he | he
  · exact hbehind.isWrite e he
  · exact hq.isWrite e he

/-- **A reply is fresh exactly when no frame begins in held bytes.** -/
theorem Course.reply_fresh_iff (h₀ : s₀.awaiting = false) (c : Course s₀ drain s rx h)
    (hlt : s.index < s.steps.length) {t : List Event} {f : Frame} {rx' : Receiver}
    (r : Except SessionError Unit) (hh : Heard (receiverFor (request s hlt) rx) t f rx') :
    Fresh s₀.steps (h ++ asked s hlt rx :: (script drain (request s hlt) ++ t))
        (.session (.reply s.index f r) rx'.buf) ↔
      NoneBegun (h ++ asked s hlt rx :: (script drain (request s hlt) ++ t))
        (.session (.reply s.index f r) rx'.buf) := by
  obtain ⟨hsession, hread, -, hwritten⟩ := script_readings drain (request s hlt)
  have hcalls : sessionHistory (script drain (request s hlt) ++ t) = [] := by
    rw [sessionHistory_append, hsession, hh.quiet.sessionHistory, List.append_nil]
  have hlast := lastRequest_asked hlt rx h hcalls
  have hsince := since_asked hlt rx h hcalls
  have hfresh : Fresh s₀.steps (h ++ asked s hlt rx :: (script drain (request s hlt) ++ t))
      (.session (.reply s.index f r) rx'.buf) ↔ f.encode ++ rx'.buf <:+ readBytes t := by
    rw [Fresh, hlast, hsince, readBytes_since_write hlt rx h hh.quiet, written_append, hwritten,
      hh.quiet.written, c.getElem?_index h₀ hlt]
    simp [request, Step.send]
  rw [hfresh, NoneBegun, hlast, hsince, readBytes_append, hread, List.nil_append]
  constructor
  · rintro hsuf x held heq hbefore hafter
    cases heq
    rw [receiverFor, hbefore, hafter] at hh
    exact hh.suffix_iff.mp hsuf
  · intro hnone
    rw [hh.suffix_iff]
    cases hbefore : (request s hlt).retuneBeforeSend with
    | some b =>
        rw [receiverFor, hbefore]
        intro i hi
        cases hi
    | none =>
        cases hafter : (request s hlt).retuneAfterSend with
        | some b =>
            rw [receiverFor, hbefore, hafter]
            intro i hi
            cases hi
        | none =>
            rw [receiverFor, hbefore, hafter]
            exact hnone _ _ rfl hbefore hafter

/-! ### Whole runs -/

/-- Only replies are fresh or stale. -/
theorem fresh_iff_of_onSession {steps : List Step} {e : Event} (he : e.onSession = none) :
    Fresh steps h e ↔ NoneBegun h e := by
  cases e with
  | session e held => cases he
  | wire _ _ | read _ | now _ | sleep _ | log _ => exact Iff.rfl

/-- One iteration passes on fresh replies exactly when no frame begins in held bytes. -/
theorem guarded_fresh_iff (h₀ : s₀.awaiting = false) :
    Guarded s₀ drain fun h e => Fresh s₀.steps h e ↔ NoneBegun h e where
  sends {s rx h} c hlt := by
    refine guardsFrom_cons.mpr ⟨Iff.rfl, guardsFrom_of_forall fun h' e he => ?_⟩
    exact fresh_iff_of_onSession
      (List.filterMap_eq_nil_iff.mp (script_readings drain (request s hlt)).1 e he)
  fails _ := Iff.rfl
  quiet c hlt he t hq := guardsFrom_of_forall fun h' e he =>
    fresh_iff_of_onSession (List.filterMap_eq_nil_iff.mp hq.sessionHistory e he)
  reply c hlt t f rx' r hh := c.reply_fresh_iff h₀ hlt r hh
  finished _ := Iff.rfl

/-- **When replies are fresh.** For every session and whatever the wire and the clock do: the
frames passed to `on_reply` in a run consist of bytes read after their requests were
written, exactly when no frame begins in the bytes held when a request was handed out. -/
theorem fresh_iff_noneBegun (w : World) (drain : DrainConfig) (fuel : ℕ) (s₀ : Session) :
    GuardsFrom (Fresh s₀.steps) [] (run w drain fuel s₀ .new []).2 ↔
      GuardsFrom NoneBegun [] (run w drain fuel s₀ .new []).2 := by
  refine guardsFrom_congr ?_
  cases h₀ : s₀.awaiting with
  | false => exact (guarded_fresh_iff h₀).run h₀ w fuel
  | true =>
      cases fuel with
      | zero => exact guardsFrom_nil []
      | succ fuel =>
          rw [run_of_awaiting h₀]
          exact guardsFrom_cons.mpr ⟨Iff.rfl, guardsFrom_nil _⟩

/-- The replies to an erase session, with the ack of the first link test sent twice and no
answer to the second. -/
def staleReplies : List Bytes :=
  [(Frame.mcu 0x8F [0xFF, 0xFD, 0x00, 0x06, 0xA0, 0x81]).encode,
    (Frame.mcu 0x8E [0xFF, 0xFD, 0x00, 0x06, 0xA0]).encode,
    (Frame.mcu 0x80 []).encode ++ (Frame.mcu 0x80 []).encode,
    (Frame.mcu 0x80 []).encode, (Frame.mcu 0x80 []).encode,
    (Frame.mcu 0x80 [0xF0, 0x02, 0xC4, 0x2B, 0x01, 0x83, 0x74]).encode]

/-- **Four link tests pass on three answers**: the run succeeds, and the ack accepted for the
second link test was read before that link test was written. -/
theorem link_test_not_fresh :
    ∃ s t, run (playback staleReplies) .default 20 (.new benchErase) .new [] = (.ok s, t) ∧
      ¬ GuardsFrom (Fresh benchErase) [] t := by
  have hok : (run (playback staleReplies) .default 20 (.new benchErase) .new []).1.isOk = true :=
    by decide +kernel
  have hstale : ¬ GuardsFrom (Fresh benchErase) []
      (run (playback staleReplies) .default 20 (.new benchErase) .new []).2 := by
    decide +kernel
  match hrun : run (playback staleReplies) .default 20 (.new benchErase) .new [] with
  | (.ok s, t) =>
      rw [hrun] at hstale
      exact ⟨s, t, rfl, hstale⟩
  | (.error _, _) =>
      rw [hrun] at hok
      cases hok

end Stcbsl.Driver
