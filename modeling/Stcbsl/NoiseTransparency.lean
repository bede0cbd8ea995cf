import Stcbsl.RunReport
import Stcbsl.Stream

/-!
# Line Noise is Transparent to a Session

Two runs of the driver over the same steps, whose requests are answered by the same frames:
in the one the wire delivers exactly these frames, in the other there is noise in front of
each, and the reads are cut in any way. The receiver lives on from step to step, so what one
step leaves in it the next one finds; that is nothing, as it turns out, whatever noise there
was.

## Undisturbed runs

A run is undisturbed (`Undisturbed`) when no call fails, no look at the clock shows that the
deadline has passed, and the reads behind a request return one by one the chunks that are
delivered for it. Put together, these are noise and then the answer. Of the noise only that it is
free of the preamble pair is asked; where it is cut, and the answer with it, is up to the wire.

## One conversation

What a session does when it hears its replies is told without a wire by `Converses`, and is
determined by the replies. An undisturbed run converses, noisy or not, so two undisturbed runs
with the same answers end alike and make the same calls. They read different bytes and log
different lines.

## Main results

* `awaitFrame_undisturbed` — the answer comes out of the wait, and nothing stays behind.
* `iteration_undisturbed`, `run_converses` — an undisturbed run converses.
* `noise_transparent` — noise changes neither the result nor the calls on the wire.
-/

namespace Stcbsl.Driver

open Traced Resync Stc89

/-! ### Undisturbed runs -/

/-- A call on the wire, whatever came of it. -/
def Event.wireCall : Event → Option WireOp
  | wire op _ => some op
  | _ => none

/-- The calls on the wire: writes, changes of the rate, flushes and drains. -/
def wireCalls (h : List Event) : List WireOp := h.filterMap Event.wireCall

/-- A clock reading. -/
def Event.clock : Event → Option ℕ
  | now t => some t
  | _ => none

/-- The time at which the wait for the reply to the last request began. -/
def waitingSince (h : List Event) : Option ℕ :=
  ((since Event.isRequest h).filterMap Event.clock).head?

/-- The number of reads since the last request. -/
def readsSince (h : List Event) : ℕ := (since Event.isRequest h).countP Event.isRead

/-- **The run is not disturbed** by this event: no call on the wire fails, each read returns
the next of the chunks delivered after the last request, or nothing behind the last of them,
and the clock stays before the deadline. A step that awaits no reply is delivered none. -/
def Undisturbed (chunks : ℕ → List Bytes) (h : List Event) : Event → Prop
  | .wire _ result => result = .ok ()
  | .read result => ∀ p ∈ lastRequest h,
      result = .ok ((chunks p.1.index).getD (readsSince h) [])
  | .now t => ∀ p ∈ lastRequest h, ∀ t₀ ∈ waitingSince h,
      t < t₀ + p.1.timeoutMs.toNat * 1000000
  | _ => True

instance (chunks : ℕ → List Bytes) (h : List Event) : DecidablePred (Undisturbed chunks h)
  | .wire _ result => inferInstanceAs (Decidable (result = .ok ()))
  | .read result => inferInstanceAs (Decidable (∀ p ∈ lastRequest h,
      result = .ok ((chunks p.1.index).getD (readsSince h) [])))
  | .now t => inferInstanceAs (Decidable (∀ p ∈ lastRequest h, ∀ t₀ ∈ waitingSince h,
      t < t₀ + p.1.timeoutMs.toNat * 1000000))
  | .sleep _ | .log _ | .session _ _ => inferInstanceAs (Decidable True)

/-- The fuel lasts for a read of every chunk in every step. -/
def Suffices (steps : List Step) (chunks : ℕ → List Bytes) (fuel : ℕ) : Prop :=
  steps.length < fuel ∧ ∀ i < steps.length, i + (chunks i).length + 1 < fuel

instance (steps : List Step) (chunks : ℕ → List Bytes) (fuel : ℕ) :
    Decidable (Suffices steps chunks fuel) := inferInstanceAs (Decidable (_ ∧ _))

/-! ### The session alone -/

/-- **A turn of a conversation**: the request at the cursor is sent, and its reply accepted, if
it awaits one. -/
inductive Turn (reply : ℕ → Frame) (s : Session) (hlt : s.index < s.steps.length) :
    Session → Prop
  | silent (he : s.steps[s.index].expectReply = false) : Turn reply s hlt (s.issue hlt)
  | answered {s' : Session} (he : s.steps[s.index].expectReply = true)
      (hs' : (s.issue hlt).onReply (reply s.index) = (.ok (), s')) : Turn reply s hlt s'

/-- **What a session does when it hears its replies**: from the session `s` on it ends with
`r`, after these calls on the wire. -/
inductive Converses (drain : DrainConfig) (reply : ℕ → Frame) :
    Session → Except Halt Session → List WireOp → Prop
  | finished {s : Session} (hle : s.steps.length ≤ s.index) :
      Converses drain reply s (.ok s) []
  | turn {s s' : Session} {r : Except Halt Session} {calls : List WireOp}
      (hlt : s.index < s.steps.length) (ht : Turn reply s hlt s')
      (c : Converses drain reply s' r calls) :
      Converses drain reply s r (wireCalls (script drain (request s hlt)) ++ calls)
  | rejected {s s' : Session} {e : SessionError} (hlt : s.index < s.steps.length)
      (he : s.steps[s.index].expectReply = true)
      (hs' : (s.issue hlt).onReply (reply s.index) = (.error e, s')) :
      Converses drain reply s (.error (.error (wrap s' (.session e))))
        (wireCalls (script drain (request s hlt)))

section Converses

variable {drain : DrainConfig} {reply : ℕ → Frame} {s s' : Session}
  {hlt : s.index < s.steps.length}

/-- Behind a turn the session stands before the next step. -/
theorem Turn.next (h : Turn reply s hlt s') :
    s'.index = s.index + 1 ∧ s'.steps = s.steps ∧ s'.awaiting = false := by
  cases h with
  | silent he =>
      refine ⟨?_, Session.issue_steps s hlt, ?_⟩
      · rw [Session.issue_index, if_neg (by simp [he])]
      · rw [Session.issue_awaiting, he]
  | answered he hs' =>
      rcases (s.issue hlt).onReply_cases (reply s.index) with ⟨e, hanswer⟩ | ⟨-, hlt', -, hanswer⟩
      · rw [hs'] at hanswer
        cases hanswer
      · rw [hs'] at hanswer
        cases hanswer
        refine ⟨?_, ?_, Session.advance_awaiting _ _⟩
        · rw [Session.advance_index, Session.issue_index, if_pos he]
        · rw [Session.advance_steps, Session.issue_steps]

/-- A turn of a session has one outcome. -/
theorem Turn.deterministic {s'' : Session} (h : Turn reply s hlt s')
    (h' : Turn reply s hlt s'') : s' = s'' := by
  cases h with
  | silent he =>
      cases h' with
      | silent _ => rfl
      | answered he' _ =>
          rw [he] at he'
          cases he'
  | answered he hs' =>
      cases h' with
      | silent he' =>
          rw [he] at he'
          cases he'
      | answered _ hs'' =>
          rw [hs'] at hs''
          cases hs''
          rfl

/-- A turn is not made where the reply is rejected. -/
theorem Turn.not_rejected {s'' : Session} {e : SessionError} (h : Turn reply s hlt s')
    (he : s.steps[s.index].expectReply = true) :
    (s.issue hlt).onReply (reply s.index) ≠ (.error e, s'') := by
  intro hs''
  cases h with
  | silent he' =>
      rw [he] at he'
      cases he'
  | answered _ hs' =>
      rw [hs'] at hs''
      cases hs''

/-- **The replies determine the rest.** -/
theorem Converses.deterministic {r r' : Except Halt Session} {calls calls' : List WireOp}
    (h : Converses drain reply s r calls) (h' : Converses drain reply s r' calls') :
    r = r' ∧ calls = calls' := by
  induction h generalizing r' calls' with
  | finished hle =>
      cases h' with
      | finished _ => exact ⟨rfl, rfl⟩
      | turn hlt _ _ => omega
      | rejected hlt _ _ => omega
  | turn hlt ht _ ih =>
      cases h' with
      | finished hle => omega
      | turn _ ht' c' =>
          obtain rfl := ht.deterministic ht'
          obtain ⟨rfl, rfl⟩ := ih c'
          exact ⟨rfl, rfl⟩
      | rejected _ he hs' => exact absurd hs' (ht.not_rejected he)
  | rejected hlt he hs' =>
      cases h' with
      | finished hle => omega
      | turn _ ht _ => exact absurd hs' (ht.not_rejected he)
      | rejected _ _ hs'' =>
          rw [hs'] at hs''
          cases hs''
          exact ⟨rfl, rfl⟩

/-- A conversation comes to an end. -/
theorem Converses.ne_outOfFuel {r : Except Halt Session} {calls : List WireOp}
    (h : Converses drain reply s r calls) : r ≠ .error .outOfFuel := by
  induction h with
  | finished _ => simp
  | turn _ _ _ ih => exact ih
  | rejected _ _ _ => simp

end Converses

/-! ### Waiting, undisturbed -/

/-- The reply to `x` has been awaited since `t₀`, and `k` reads were made. -/
structure Waiting (x : Send) (t₀ k : ℕ) (h : List Event) : Prop where
  request : ∃ held, lastRequest h = some (x, held)
  waitingSince : waitingSince h = some t₀
  readsSince : readsSince h = k

/-- Waiting goes on while nothing but waiting happens. -/
theorem Waiting.append {x : Send} {t₀ k : ℕ} {h t : List Event} (hw : Waiting x t₀ k h)
    (hq : Quiet t) : Waiting x t₀ (k + t.countP Event.isRead) (h ++ t) := by
  have hnone := request_of_sessionHistory hq.sessionHistory
  have hsince : since Event.isRequest (h ++ t) = since Event.isRequest h ++ t :=
    since_append fun e he => by rw [Event.isRequest, hnone e he]; rfl
  refine ⟨?_, ?_, ?_⟩
  · obtain ⟨held, hlast⟩ := hw.request
    refine ⟨held, ?_⟩
    rw [lastRequest, List.filterMap_append, List.filterMap_eq_nil_iff.mpr hnone, List.append_nil]
    exact hlast
  · have hfirst := hw.waitingSince
    rw [Driver.waitingSince] at hfirst ⊢
    rw [hsince, List.filterMap_append, List.head?_append, hfirst]
    rfl
  · rw [Driver.readsSince, hsince, List.countP_append, ← hw.readsSince]
    rfl

/-- The script of a request neither reads nor looks at the clock. -/
theorem script_deaf (drain : DrainConfig) (x : Send) :
    ∀ e ∈ script drain x, e.clock = none ∧ e.isRead = false := by
  have hall : GuardsFrom (fun _ e => e.clock = none ∧ e.isRead = false) [] (script drain x) :=
    guardsFrom_script (fun _ _ => ⟨rfl, rfl⟩) (fun _ _ => ⟨rfl, rfl⟩) (fun _ => ⟨rfl, rfl⟩)
      (fun _ => ⟨rfl, rfl⟩) (fun _ _ => ⟨rfl, rfl⟩) ⟨rfl, rfl⟩ (fun _ _ => ⟨rfl, rfl⟩)
  intro e he
  obtain ⟨pre, post, heq⟩ := List.append_of_mem he
  exact hall pre e post heq

/-- The wait begins with the first look at the clock behind the request. -/
theorem waiting_asked {s : Session} (hlt : s.index < s.steps.length) (rx : Receiver)
    (h : List Event) (drain : DrainConfig) (t₀ : ℕ) :
    Waiting (request s hlt) t₀ 0
      (h ++ asked s hlt rx :: (script drain (request s hlt) ++ [.now t₀])) := by
  have hsilent : sessionHistory (script drain (request s hlt) ++ [.now t₀]) = [] := by
    rw [sessionHistory_append, (script_readings drain _).1]
    rfl
  have hdeaf := script_deaf drain (request s hlt)
  refine ⟨⟨_, lastRequest_asked hlt rx h hsilent⟩, ?_, ?_⟩
  · rw [waitingSince, since_asked hlt rx h hsilent, List.filterMap_append,
      List.filterMap_eq_nil_iff.mpr fun e he => (hdeaf e he).1]
    rfl
  · rw [readsSince, since_asked hlt rx h hsilent, List.countP_append,
      List.countP_eq_zero.mpr fun e he => by simp [(hdeaf e he).2]]
    rfl

section Served

variable {chunks : ℕ → List Bytes} {w : World} {session : Session} {x : Send} {t₀ : ℕ}
  {noise : Bytes} {f : Frame}

/-- The clock does not reach the deadline. -/
theorem Waiting.clock_lt {k t : ℕ} {h : List Event} (hwait : Waiting x t₀ k h)
    (hg : Undisturbed chunks h (.now t)) : t < t₀ + x.timeoutMs.toNat * 1000000 := by
  rcases hwait.request with ⟨held, hlast⟩
  exact hg (x, held) hlast t₀ hwait.waitingSince

/-- A read brings the next of the chunks. -/
theorem Waiting.readSome {k : ℕ} {h t : List Event} {c : Bytes} {rest : List Bytes} {α : Type}
    {cont : Bytes → Program α} {r : Except Halt α} (hwait : Waiting x t₀ k h)
    (hrest : (chunks x.index).drop k = c :: rest)
    (hr : (w.readSome session >>= cont) h = (r, t)) (hg : GuardsFrom (Undisturbed chunks) h t) :
    ∃ t', cont c (h ++ [.read (.ok c)]) = (r, t') ∧ t = .read (.ok c) :: t' := by
  rcases hwait.request with ⟨held, hlast⟩
  have hnext : (chunks x.index).getD k [] = c := by
    rw [List.getD_eq_getElem?_getD, ← Nat.add_zero k, ← List.getElem?_drop, hrest]
    rfl
  rcases readSome_run w session h with ⟨io, hio⟩ | ⟨bytes, hbytes⟩
  · rw [Prog.bind_of_error hio] at hr
    obtain ⟨-, rfl⟩ := Prod.mk.inj hr
    cases (guardsFrom_cons.mp hg).1 (x, held) hlast
  · rw [Prog.bind_of_ok hbytes rfl] at hr
    obtain ⟨rfl, rfl⟩ := Prod.mk.inj hr
    have hchunk : bytes = c := by
      have := (guardsFrom_cons.mp hg).1 (x, held) hlast
      rw [hwait.readsSince, hnext] at this
      exact Except.ok.inj this
    subst hchunk
    exact ⟨_, rfl, rfl⟩

/-- **The wait for a frame behind noise.** The receiver holds what it makes of the chunks that
have come, and nothing has come out of them; each iteration reads one of the others, which is not
late, and with the last of them the frame comes out. -/
theorem awaitFrame_undisturbed (hn : PreambleFree noise) (hf : f.LenPlausible)
    {rest : List Bytes} {fed : Bytes} {rx : Receiver} {its : List StreamItem} {fuel k : ℕ}
    {h t : List Event} {r : Except Halt (Frame × Receiver)} (hreads : Reads frames fed its rx.buf)
    (hsilent : its.filterMap Item.output = []) (hfed : fed ++ rest.flatten = noise ++ f.encode)
    (hfuel : rest.length < fuel) (hwait : Waiting x t₀ k h)
    (hrest : (chunks x.index).drop k = rest)
    (hr : awaitFrame w session x (t₀ + x.timeoutMs.toNat * 1000000) fuel rx h = (r, t))
    (hg : GuardsFrom (Undisturbed chunks) h t) : ∃ rx', r = .ok (f, rx') ∧ rx'.buf = [] := by
  induction fuel generalizing rest fed rx its k h t r with
  | zero => omega
  | succ fuel ih =>
      match hpoll : rx.nextFrame with
      | (o, rx₁) =>
          rcases rx.nextFrame_noise_frame hn hf hreads hsilent hfed with
            ⟨-, ho, hbuf⟩ | ⟨hmore, ho, its', hreads', hsilent'⟩
          · rw [hpoll] at ho hbuf
            obtain rfl : o = some (.ok f) := ho
            obtain ⟨t', hlog, -, -⟩ := logDiscarded_run rx₁.discarded h
            have hdone : awaitFrame w session x (t₀ + x.timeoutMs.toNat * 1000000) (fuel + 1)
                rx h = (.ok (f, { rx₁ with discarded := [] }), t' ++ []) := by
              rw [awaitFrame, hpoll]
              exact Prog.bind_of_ok hlog rfl
            obtain ⟨rfl, -⟩ := Prod.mk.inj (hdone.symm.trans hr)
            exact ⟨_, rfl, hbuf⟩
          · rw [hpoll] at ho hreads'
            obtain rfl : o = none := ho
            obtain ⟨c, rest, rfl⟩ : ∃ c rest', rest = c :: rest' :=
              List.exists_cons_of_ne_nil fun hnil => hmore (by rw [hnil]; rfl)
            rw [awaitFrame, hpoll] at hr
            obtain ⟨t₁, hr₁, rfl⟩ := clock_bind hr
            rw [guardsFrom_cons] at hg
            rw [if_neg (Nat.not_le.mpr (hwait.clock_lt hg.1))] at hr₁
            have hwait₁ := hwait.append (t := [.now (w.now h)]) (quiet_single rfl)
            obtain ⟨t₂, hr₂, rfl⟩ := hwait₁.readSome hrest hr₁ hg.2
            have hwait₂ := hwait₁.append (t := [.read (.ok c)]) (quiet_single rfl)
            have hfeed : (if c = [] then rx₁ else rx₁.feed c).buf = rx₁.buf ++ c := by
              split_ifs with hc
              · rw [hc, List.append_nil]
              · rfl
            have hreads₂ := hreads'.append c
            rw [← hfeed] at hreads₂
            rw [List.flatten_cons, ← List.append_assoc] at hfed
            rw [List.length_cons] at hfuel
            refine ih hreads₂ hsilent' hfed (by omega) hwait₂ ?_ hr₂ (guardsFrom_cons.mp hg.2).2
            exact (List.drop_add_one_eq_tail_drop ..).trans (congrArg List.tail hrest)

/-- **The wait for a reply behind noise**: the reply comes out, and nothing is left behind. -/
theorem awaitReply_undisturbed {s : Session} (hlt : s.index < s.steps.length)
    (hn : PreambleFree noise) (hf : f.LenPlausible) {rx rx₀ : Receiver} {drain : DrainConfig}
    {fuel : ℕ} {h t : List Event} {r : Except Halt (Frame × Receiver)} (hbuf : rx.buf = [])
    (hchunks : (chunks s.index).flatten = noise ++ f.encode)
    (hfuel : (chunks s.index).length < fuel)
    (hr : awaitReply w session (request s hlt) fuel rx
      (h ++ asked s hlt rx₀ :: script drain (request s hlt)) = (r, t))
    (hg : GuardsFrom (Undisturbed chunks)
      (h ++ asked s hlt rx₀ :: script drain (request s hlt)) t) :
    ∃ rx', r = .ok (f, rx') ∧ rx'.buf = [] := by
  obtain ⟨t₁, hr₁, rfl⟩ := clock_bind hr
  rw [guardsFrom_cons] at hg
  have hwait := waiting_asked hlt rx₀ h drain (w.now (h ++ asked s hlt rx₀ ::
    script drain (request s hlt)))
  rw [← List.cons_append, ← List.append_assoc] at hwait
  have hreads : Reads frames [] [] rx.buf := by
    rw [hbuf]
    exact .nil []
  rcases Prog.bind_inv hr₁ with ⟨halt, -, hframe⟩ | ⟨⟨f', rx₁⟩, t₂, t₃, hframe, hr₂, rfl⟩
  · obtain ⟨_, hbad, -⟩ := awaitFrame_undisturbed hn hf hreads rfl hchunks hfuel hwait rfl hframe
      hg.2
    cases hbad
  · obtain ⟨rx', hok, hbuf'⟩ := awaitFrame_undisturbed hn hf hreads rfl hchunks hfuel hwait rfl
      hframe (guardsFrom_append.mp hg.2).1
    cases hok
    obtain ⟨t', hlog, -, -⟩ := logReply_run f rx₁ (h ++ asked s hlt rx₀ ::
      script drain (request s hlt) ++ [.now (w.now (h ++ asked s hlt rx₀ ::
        script drain (request s hlt)))] ++ t₂)
    obtain ⟨rfl, -⟩ := Prod.mk.inj (hlog.symm.trans hr₂)
    exact ⟨_, rfl, hbuf'⟩

end Served

/-! ### Undisturbed runs converse -/

/-- Nothing but waiting makes no call on the wire. -/
theorem Quiet.wireCalls {t : List Event} (h : Quiet t) : wireCalls t = [] := by
  refine filterMap_of_kind (fun e he => ?_) h
  cases e <;> first | rfl | cases he

/-- The calls on the wire in two parts of a run. -/
theorem wireCalls_append (h h' : List Event) : wireCalls (h ++ h') = wireCalls h ++ wireCalls h' :=
  List.filterMap_append

/-- An undisturbed request is sent whole. -/
theorem transmit_undisturbed {chunks : ℕ → List Bytes} {w : World} {drain : DrainConfig}
    {session : Session} {x : Send} {rx : Receiver} {α : Type} {cont : Receiver → Program α}
    {h t : List Event} {r : Except Halt α}
    (hr : (transmit w drain session x rx >>= cont) h = (r, t))
    (hg : GuardsFrom (Undisturbed chunks) h t) :
    ∃ t', cont (receiverFor x rx) (h ++ script drain x) = (r, t') ∧ t = script drain x ++ t' := by
  rcases transmit_follows w drain session x rx h with
    hsent | ⟨pre, _, post, _, _, hscript, hfail, hsent⟩
  · rw [Prog.bind_of_ok hsent rfl] at hr
    obtain ⟨rfl, rfl⟩ := Prod.mk.inj hr
    exact ⟨_, rfl, rfl⟩
  · obtain ⟨op, io, rfl, rfl, rfl⟩ := hfail
    rw [Prog.bind_of_error hsent] at hr
    obtain ⟨-, rfl⟩ := Prod.mk.inj hr
    cases (guardsFrom_cons.mp (guardsFrom_append.mp hg).2).1

/-- The reply is heard behind its noise, and what follows goes on with it. -/
theorem reply_undisturbed {chunks : ℕ → List Bytes} {w : World} {drain : DrainConfig} {s : Session}
    {noise : Bytes} {f : Frame} (hlt : s.index < s.steps.length) (hn : PreambleFree noise)
    (hf : f.LenPlausible) {rx rx₀ : Receiver} {fuel : ℕ} {α : Type}
    {cont : Frame × Receiver → Program α} {h t : List Event} {r : Except Halt α}
    (hbuf : rx.buf = []) (hchunks : (chunks s.index).flatten = noise ++ f.encode)
    (hfuel : (chunks s.index).length < fuel)
    (hr : (awaitReply w (s.issue hlt) (request s hlt) fuel rx >>= cont)
      (h ++ asked s hlt rx₀ :: script drain (request s hlt)) = (r, t))
    (hg : GuardsFrom (Undisturbed chunks)
      (h ++ asked s hlt rx₀ :: script drain (request s hlt)) t) :
    ∃ rx' t₁ t₂, rx'.buf = [] ∧ wireCalls t₁ = [] ∧
      cont (f, rx') (h ++ asked s hlt rx₀ :: script drain (request s hlt) ++ t₁) = (r, t₂) ∧
      t = t₁ ++ t₂ := by
  rcases Prog.bind_inv hr with ⟨halt, -, hwait⟩ | ⟨⟨f', rx'⟩, t₁, t₂, hwait, hr', rfl⟩
  · obtain ⟨_, hbad, -⟩ := awaitReply_undisturbed hlt hn hf hbuf hchunks hfuel hwait hg
    cases hbad
  · obtain ⟨_, hok, hbuf'⟩ := awaitReply_undisturbed hlt hn hf hbuf hchunks hfuel hwait
      (guardsFrom_append.mp hg).1
    cases hok
    have hends := awaitReply_awaits w (s.issue hlt) (request s hlt) fuel rx
      (h ++ asked s hlt rx₀ :: script drain (request s hlt))
    rw [Awaits, hwait] at hends
    exact ⟨rx', t₁, t₂, hbuf', hends.quiet.wireCalls, hr', rfl⟩

/-- An empty receiver stays empty in front of a request. -/
theorem buf_receiverFor {x : Send} {rx : Receiver} (h : rx.buf = []) :
    (receiverFor x rx).buf = [] := by
  rw [receiverFor]
  split
  · exact h
  · rfl

section Run

variable {reply : ℕ → Frame} {noise : ℕ → Bytes} {chunks : ℕ → List Bytes} {w : World}
  {drain : DrainConfig} {fuel : ℕ} {s : Session} {rx : Receiver} {h t : List Event}
  {r : Except Halt Session}

/-- **One iteration of an undisturbed run** makes a turn of the conversation and goes on with an
empty receiver, or ends because the reply is rejected. -/
theorem iteration_undisturbed (hreply : ∀ i, (reply i).LenPlausible)
    (hnoise : ∀ i, PreambleFree (noise i))
    (hchunks : ∀ i, (chunks i).flatten = noise i ++ (reply i).encode)
    (hlt : s.index < s.steps.length) (hfuel : (chunks s.index).length < fuel)
    (ha : s.awaiting = false) (hbuf : rx.buf = [])
    (hr : run w drain (fuel + 1) s rx h = (r, t)) (hg : GuardsFrom (Undisturbed chunks) h t) :
    (∃ s' rx' h' t', Turn reply s hlt s' ∧ rx'.buf = [] ∧ run w drain fuel s' rx' h' = (r, t') ∧
      GuardsFrom (Undisturbed chunks) h' t' ∧
      wireCalls t = wireCalls (script drain (request s hlt)) ++ wireCalls t') ∨
    ∃ e s', s.steps[s.index].expectReply = true ∧
      (s.issue hlt).onReply (reply s.index) = (.error e, s') ∧
      r = .error (.error (wrap s' (.session e))) ∧
      wireCalls t = wireCalls (script drain (request s hlt)) := by
  rw [run_of_lt ha hlt] at hr
  obtain ⟨t₁, hr₁, rfl⟩ := emit_bind hr
  rw [guardsFrom_cons] at hg
  obtain ⟨t₂, hr₂, rfl⟩ := transmit_undisturbed hr₁ hg.2
  have hg₂ := (guardsFrom_append.mp hg.2).2
  have hbuf' : (receiverFor (request s hlt) rx).buf = [] := buf_receiverFor hbuf
  have hcalls : wireCalls (asked s hlt rx :: (script drain (request s hlt) ++ t₂)) =
      wireCalls (script drain (request s hlt)) ++ wireCalls t₂ := wireCalls_append _ _
  rw [hcalls]
  by_cases he : s.steps[s.index].expectReply = true
  · rw [if_neg (by rw [request_expectReply, he]; decide)] at hr₂
    rw [List.append_assoc, List.singleton_append] at hr₂ hg₂
    obtain ⟨rx₁, t₃, t₄, hbuf₁, hquiet, hr₃, rfl⟩ :=
      reply_undisturbed hlt (hnoise _) (hreply _) hbuf' (hchunks _) hfuel hr₂ hg₂
    have hg₃ := (guardsFrom_append.mp hg₂).2
    cases hanswer : (s.issue hlt).onReply (reply s.index) with
    | mk result s' =>
        simp only [hanswer] at hr₃
        obtain ⟨t₅, hr₄, rfl⟩ := emit_bind hr₃
        have hlast : wireCalls (t₃ ++ .session (.reply (s.issue hlt).index (reply s.index)
            result) rx₁.buf :: t₅) = wireCalls t₅ := by
          rw [wireCalls_append, hquiet]
          rfl
        rw [hlast]
        cases result with
        | error e =>
            obtain ⟨rfl, rfl⟩ := Prod.mk.inj hr₄
            exact .inr ⟨e, s', he, rfl, rfl, List.append_nil _⟩
        | ok _ =>
            exact .inl ⟨s', rx₁, _, t₅, .answered he hanswer, hbuf₁, hr₄,
              (guardsFrom_cons.mp hg₃).2, rfl⟩
  · rw [if_pos (by rw [request_expectReply]; simpa using he)] at hr₂
    exact .inl ⟨_, _, _, t₂, .silent (by simpa using he), hbuf', hr₂, hg₂, rfl⟩

/-- **An undisturbed run converses.** The induction is on the fuel; at the head of the loop the
receiver is empty, whatever noise there was. -/
theorem run_converses (hreply : ∀ i, (reply i).LenPlausible)
    (hnoise : ∀ i, PreambleFree (noise i))
    (hchunks : ∀ i, (chunks i).flatten = noise i ++ (reply i).encode) {total : ℕ}
    (hsuffices : Suffices s.steps chunks total) (hfuel : fuel + s.index = total)
    (ha : s.awaiting = false) (hle : s.index ≤ s.steps.length) (hbuf : rx.buf = [])
    (hr : run w drain fuel s rx h = (r, t)) (hg : GuardsFrom (Undisturbed chunks) h t) :
    Converses drain reply s r (wireCalls t) := by
  induction fuel generalizing s rx h r t with
  | zero =>
      have := hsuffices.1
      omega
  | succ fuel ih =>
      by_cases hend : s.steps.length ≤ s.index
      · rw [run_of_le ha hend] at hr
        obtain ⟨rfl, rfl⟩ := Prod.mk.inj hr
        exact .finished hend
      have hlt : s.index < s.steps.length := Nat.lt_of_not_le hend
      have hroom : (chunks s.index).length < fuel := by
        have := hsuffices.2 s.index hlt
        omega
      rcases iteration_undisturbed hreply hnoise hchunks hlt hroom ha hbuf hr hg with
        ⟨s', rx', h', t', hturn, hbuf', hr', hg', hcalls⟩ | ⟨e, s', he, hs', rfl, hcalls⟩
      · obtain ⟨hindex, hsteps, ha'⟩ := hturn.next
        rw [hcalls]
        refine .turn hlt hturn (ih ?_ ?_ ha' ?_ hbuf' hr' hg')
        · rwa [hsteps]
        · omega
        · rw [hsteps]
          omega
      · rw [hcalls]
        exact .rejected hlt he hs'

end Run

/-- **Line noise is transparent to a session.** Of two undisturbed runs with the same replies,
any plausible frames, the one is delivered exactly the replies, and the other noise free of the
preamble in front of each; either way in any pieces, empty ones among them. Both come to an
end, with the same result, after the same calls on the wire. -/
theorem noise_transparent (steps : List Step) (drain : DrainConfig) (reply : ℕ → Frame)
    (noise : ℕ → Bytes) (chunks₁ chunks₂ : ℕ → List Bytes)
    (hreply : ∀ i, (reply i).LenPlausible) (hnoise : ∀ i, PreambleFree (noise i))
    (hclean : ∀ i, (chunks₁ i).flatten = (reply i).encode)
    (hnoisy : ∀ i, (chunks₂ i).flatten = noise i ++ (reply i).encode)
    (w₁ w₂ : World) (fuel₁ fuel₂ : ℕ) (hfuel₁ : Suffices steps chunks₁ fuel₁)
    (hfuel₂ : Suffices steps chunks₂ fuel₂)
    (h₁ : GuardsFrom (Undisturbed chunks₁) [] (runFresh w₁ drain fuel₁ steps).2)
    (h₂ : GuardsFrom (Undisturbed chunks₂) [] (runFresh w₂ drain fuel₂ steps).2) :
    (runFresh w₁ drain fuel₁ steps).1 = (runFresh w₂ drain fuel₂ steps).1 ∧
      (runFresh w₁ drain fuel₁ steps).1 ≠ .error .outOfFuel ∧
      wireCalls (runFresh w₁ drain fuel₁ steps).2 =
        wireCalls (runFresh w₂ drain fuel₂ steps).2 := by
  have hempty : ∀ _ : ℕ, PreambleFree [] := fun _ => by decide
  have c₁ := run_converses hreply hempty (fun i => by rw [hclean, List.nil_append])
    (s := .new steps) hfuel₁ rfl rfl (Nat.zero_le _) rfl rfl h₁
  have c₂ := run_converses hreply hnoise hnoisy (s := .new steps) hfuel₂ rfl rfl
    (Nat.zero_le _) rfl rfl h₂
  obtain ⟨hresult, hcalls⟩ := c₁.deterministic c₂
  exact ⟨hresult, c₁.ne_outOfFuel, hcalls⟩

/-- Two write requests, acknowledged. -/
def twoWrites : List Step := [writeStep .default 2 0 [0x02], writeStep .default 2 1 [0x02]]

/-- The ack of both. -/
def writeAck : Frame := Frame.mcu 0x80 [0x02]

/-- `noise_transparent` for two write requests, and stray bytes in front of their acks. -/
theorem noise_transparent_stray :
    (runFresh (playback [writeAck.encode, writeAck.encode]) .default 10 twoWrites).1 =
      (runFresh (playback [[], [0x00, 0x46], writeAck.encode, [], [0x00, 0x46], writeAck.encode])
        .default 10 twoWrites).1 :=
  (noise_transparent twoWrites .default (fun _ => writeAck) (fun _ => [0x00, 0x46])
    (fun _ => [writeAck.encode]) (fun _ => [[], [0x00, 0x46], writeAck.encode])
    (fun _ => by decide) (fun _ => by decide) (fun _ => rfl) (fun _ => rfl) _ _ 10 10
    (by decide) (by decide) (by decide +kernel) (by decide +kernel)).1

end Stcbsl.Driver
