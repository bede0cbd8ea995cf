import Stcbsl.Causes
import Stcbsl.Conservation

/-!
# What the Log Tells

Every failure of the protocol looks like silence, so the log is what a bench session is read by.
It is true to the line: what it reports as discarded and as replies stands in what was read, in
this order and without overlap, and it never runs ahead; a request is announced by its label and
its bytes right before it is written; and the noise that is counted is the noise that was
reported.

## Truth at every event

The log is true at each event and not only at the end (`Truthful`): what has been told by then
lies in what has been read by then. A run that breaks off leaves a true log behind, and a line
that reports bytes which are read later only would be found out.

## The invariant

What was read is what the log has told of, and behind it what the receiver has discarded and not
yet reported, and its buffer (`Telling`). The log need not tell everything: a frame that the
handshake passes over is in no line, and when the rate changes a new receiver takes over, so the
rest of the old one is never told.

## Main results

* `runRule_telling`, `pulseRule_telling` — the loops keep the log true.
* `contract_sift_telling` — the inner loop of the handshake tells what it takes out.
* `CliLog.noise_behind` — the running total of the command line.
* `main_tells` — the log of the program.
-/

namespace Stcbsl

open Traced Resync Stc89

namespace Driver

/-! ### What a line tells -/

/-- What a line of the log says has been on the wire. -/
def Event.told : Event → Option Bytes
  | log (.discarded d) => some d
  | log (.reply f) => some f.encode
  | _ => none

/-- What the log tells, line by line. -/
def transcript (h : List Event) : List Bytes := h.filterMap Event.told

/-- **The log is true**: what it tells was read, in this order and without overlap. -/
def Truthful (h : List Event) (e : Event) : Prop :=
  InOrder (transcript (h ++ [e])) (readBytes (h ++ [e]))

/-- **A request is announced** right before it is written. -/
def Announced (h : List Event) : Event → Prop
  | .wire (.writeAll bytes) _ => ∀ p ∈ lastRequest h, bytes = p.1.bytes ∧
      h.getLast? = some (.log (.step p.1.label bytes))
  | _ => True

/-- How many bytes the log reports as discarded. -/
def thrown (h : List Event) : ℕ :=
  (h.map fun e => match e with | .log (.discarded d) => d.length | _ => 0).sum

variable {h t : List Event} {rx rx' : Receiver} {w : Bytes}

/-- What is told in two parts of a run. -/
theorem transcript_append (h t : List Event) : transcript (h ++ t) = transcript h ++ transcript t :=
  List.filterMap_append

/-- An event that tells nothing adds nothing to the transcript. -/
theorem transcript_concat {e : Event} (he : e.told = none) :
    transcript (h ++ [e]) = transcript h := by
  have hnone : transcript [e] = [] := List.filterMap_cons_none he
  rw [transcript_append, hnone, List.append_nil]

/-- The number of bytes reported as discarded in two parts of a run. -/
theorem thrown_append (h t : List Event) : thrown (h ++ t) = thrown h + thrown t := by
  rw [thrown, List.map_append, List.sum_append]
  rfl

/-- The line about discarded bytes reports all of them. -/
theorem thrown_logged (d : Bytes) : thrown (logged d) = d.length := by
  cases d with
  | nil => rfl
  | cons b d => exact Nat.add_zero _

/-- **The log is true so far**, and the receiver holds what was read behind what was told: the
bytes it has discarded, `w`, and its buffer. -/
structure Telling (w : Bytes) (rx : Receiver) (h : List Event) : Prop where
  truthful : GuardsFrom Truthful [] h
  announced : GuardsFrom Announced [] h
  stream : ∃ p, readBytes h = p ++ rx.discarded ++ w ++ rx.buf ∧ InOrder (transcript h) p

/-- The log is true where what it tells lies in a beginning of what was read. -/
theorem truthful_of_stream {e : Event} {p s : Bytes} (hp : readBytes (h ++ [e]) = p ++ s)
    (hin : InOrder (transcript (h ++ [e])) p) : Truthful h e := by
  rw [Truthful, hp]
  exact hin.append s

namespace Telling

/-- An event that tells nothing and brings nothing. -/
theorem concat {e : Event} (ht : Telling w rx h) (he : e.told = none) (hread : e.bytesRead = [])
    (ha : Announced h e) : Telling w rx (h ++ [e]) := by
  obtain ⟨p, hp, hin⟩ := ht.stream
  have hbytes : readBytes (h ++ [e]) = p ++ rx.discarded ++ w ++ rx.buf := by
    rw [readBytes_concat hread, hp]
  have hsame : InOrder (transcript (h ++ [e])) p := by rwa [transcript_concat he]
  refine ⟨guardsFrom_concat.mpr ⟨ht.truthful, truthful_of_stream (s := rx.discarded ++ w ++ rx.buf)
    ?_ hsame⟩, guardsFrom_concat.mpr ⟨ht.announced, ha⟩, p, hbytes, hsame⟩
  rw [hbytes, List.append_assoc, List.append_assoc, List.append_assoc]

/-- A look at the clock keeps the log true. -/
theorem look (ht : Telling w rx h) (t : ℕ) : Telling w rx (h ++ [.now t]) :=
  ht.concat rfl rfl trivial

/-- A call on the session keeps the log true. -/
theorem call (ht : Telling w rx h) (e : Session.Event) (held : Bytes) :
    Telling w rx (h ++ [.session e held]) := ht.concat rfl rfl trivial

/-- Announced events that neither tell nor read keep the log true. -/
theorem append (ht : Telling w rx h) (ha : GuardsFrom Announced h t)
    (hall : ∀ e ∈ t, e.told = none ∧ e.bytesRead = []) : Telling w rx (h ++ t) := by
  induction t generalizing h with
  | nil => rwa [List.append_nil]
  | cons e t ih =>
      obtain ⟨⟨he, hread⟩, hall⟩ := List.forall_mem_cons.mp hall
      obtain ⟨hae, hat⟩ := guardsFrom_cons.mp ha
      rw [List.append_cons]
      exact ih (ht.concat he hread hae) hat hall

/-- A new receiver takes over: nothing more is told of what was read so far. -/
theorem renew (ht : Telling w rx h) : Telling [] .new h := by
  obtain ⟨p, hp, hin⟩ := ht.stream
  exact ⟨ht.truthful, ht.announced, readBytes h, by simp [Receiver.new], hp ▸
    ((hin.append _).append _).append _⟩

/-- A poll that takes out no frame. -/
theorem poll {o : Option (Except FrameError Frame)} (ht : Telling [] rx h)
    (hn : rx.nextFrame = (o, rx')) (ho : ∀ f, o ≠ some (.ok f)) : Telling [] rx' h := by
  obtain ⟨d, hbuf, hdisc⟩ := Receiver.nextFrame_conserves hn ho
  obtain ⟨p, hp, hin⟩ := ht.stream
  exact ⟨ht.truthful, ht.announced, p, by rw [hp, hbuf, hdisc]; simp, hin⟩

/-- A poll that takes out a frame. -/
theorem frame {f : Frame} (ht : Telling [] rx h) (hn : rx.nextFrame = (some (.ok f), rx')) :
    Telling f.encode rx' h := by
  obtain ⟨d, hbuf, hdisc⟩ := Receiver.nextFrame_ok_conserves hn
  obtain ⟨p, hp, hin⟩ := ht.stream
  exact ⟨ht.truthful, ht.announced, p, by rw [hp, hbuf, hdisc]; simp, hin⟩

/-- The frame taken out is passed over. -/
theorem skip (ht : Telling w rx h) (hd : rx.discarded = []) : Telling [] rx h := by
  obtain ⟨p, hp, hin⟩ := ht.stream
  exact ⟨ht.truthful, ht.announced, p ++ w, by rw [hp, hd]; simp, hin.append w⟩

/-- What a read brings is fed to the receiver, which holds it behind all the rest. -/
theorem read {bytes : Bytes} (ht : Telling [] rx h) :
    Telling [] (rx.feed bytes) (h ++ [.read (.ok bytes)]) := by
  obtain ⟨p, hp, hin⟩ := ht.stream
  have hbytes : readBytes (h ++ [.read (.ok bytes)]) =
      p ++ (rx.discarded ++ (rx.buf ++ bytes)) := by
    rw [readBytes_append, hp]
    simp [readBytes, Event.bytesRead]
  have hsame : InOrder (transcript (h ++ [.read (.ok bytes)])) p := by
    rwa [transcript_concat rfl]
  exact ⟨guardsFrom_concat.mpr ⟨ht.truthful, truthful_of_stream hbytes hsame⟩,
    guardsFrom_concat.mpr ⟨ht.announced, trivial⟩, p, by rw [hbytes]; simp [Receiver.feed], hsame⟩

/-- What a line tells comes behind what was told before. -/
theorem tell {e : Event} {d : Bytes} (he : e.told = some d) (hread : e.bytesRead = [])
    (ha : Announced h e) (htruth : GuardsFrom Truthful [] h) (hann : GuardsFrom Announced [] h)
    {p : Bytes} (hp : readBytes h = p ++ d ++ (rx.discarded ++ w ++ rx.buf))
    (hin : InOrder (transcript h) p) : Telling w rx (h ++ [e]) := by
  have hbytes : readBytes (h ++ [e]) = p ++ d ++ (rx.discarded ++ w ++ rx.buf) := by
    rw [readBytes_concat hread, hp]
  have hnext : InOrder (transcript (h ++ [e])) (p ++ d) := by
    have hconcat := hin.concat [] d
    rw [List.append_nil] at hconcat
    rwa [transcript_append, transcript, transcript, List.filterMap_cons_some he, List.filterMap_nil]
  refine ⟨guardsFrom_concat.mpr ⟨htruth, truthful_of_stream hbytes hnext⟩,
    guardsFrom_concat.mpr ⟨hann, ha⟩, p ++ d, ?_, hnext⟩
  rw [hbytes]
  simp only [List.append_assoc]

/-- The discarded bytes are told. -/
theorem logged (ht : Telling w rx h) : Telling w rx.takeDiscarded.2 (h ++ logged rx.discarded) := by
  obtain ⟨p, hp, hin⟩ := ht.stream
  rw [Driver.logged]
  by_cases hd : rx.discarded = []
  · rw [hd, List.isEmpty_nil, if_pos rfl, List.append_nil]
    exact ⟨ht.truthful, ht.announced, p, by rw [hp, hd]; rfl, hin⟩
  · rw [if_neg (by simpa using hd)]
    refine tell rfl rfl trivial ht.truthful ht.announced (p := p) ?_ hin
    rw [hp]
    simp [Receiver.takeDiscarded]

/-- The frame that was taken out is told. -/
theorem reply {f : Frame} (ht : Telling f.encode rx h) (hd : rx.discarded = []) :
    Telling [] rx (h ++ [.log (.reply f)]) := by
  obtain ⟨p, hp, hin⟩ := ht.stream
  refine tell rfl rfl trivial ht.truthful ht.announced (p := p) ?_ hin
  rw [hp, hd]
  simp

end Telling

/-! ### The log of a run -/

/-- The script of a request tells nothing of what was read. -/
theorem script_untold (drain : DrainConfig) (x : Send) :
    ∀ e ∈ script drain x, e.told = none ∧ e.bytesRead = [] := by
  intro e he
  simp only [script, scriptBefore, scriptWrite, scriptAfter, scriptSettle, scriptDrain,
    scriptPause, List.mem_append] at he
  obtain (he | he) | he := he
  · cases hb : x.retuneBeforeSend <;> simp_all [Event.told, Event.bytesRead]
  · simp only [List.mem_cons, List.not_mem_nil, or_false] at he
    obtain rfl | rfl | rfl := he <;> exact ⟨rfl, rfl⟩
  · cases ha : x.retuneAfterSend with
    | none => simp [ha] at he
    | some b =>
        rw [ha, Option.elim_some] at he
        simp only [List.mem_append, List.mem_cons, List.not_mem_nil, or_false] at he
        obtain (he | he) | rfl | rfl := he
        · split at he <;> simp_all [Event.told, Event.bytesRead]
        · split at he <;> simp_all [Event.told, Event.bytesRead]
        · exact ⟨rfl, rfl⟩
        · exact ⟨rfl, rfl⟩

/-- A request is announced. -/
theorem announced_script {s : Session} (hlt : s.index < s.steps.length) (drain : DrainConfig)
    (rx : Receiver) (h : List Event) :
    GuardsFrom Announced (h ++ [asked s hlt rx]) (script drain (request s hlt)) := by
  refine guardsFrom_script (fun _ _ => trivial) (fun _ _ => trivial) (fun _ => trivial)
    (fun _ => trivial) (fun _ _ => trivial) ?_ fun _ _ => trivial
  rintro p hp
  have hsilent : sessionHistory (scriptBefore (request s hlt) ++
      [.log (.step (request s hlt).label (request s hlt).bytes)]) = [] :=
    (idle_script drain (request s hlt)).1.sessionHistory
  rw [List.append_assoc, List.singleton_append, lastRequest_asked hlt rx h hsilent] at hp
  obtain rfl := Option.some.inj hp
  refine ⟨rfl, ?_⟩
  rw [← List.append_assoc]
  exact List.getLast?_concat

/-- An end whose log is true; and the noise that is counted is the noise that was told of. -/
def EndsTelling (halt : Halt) (h : List Event) : Prop :=
  GuardsFrom Truthful [] h ∧ GuardsFrom Announced [] h ∧ match halt with
    | .error (.noBootloader _ noise) => noise = thrown h
    | _ => True

/-- An error of the run ends a true log, wrapped or not. -/
theorem Telling.wrapped {s : Session} {e : Error} (ht : Telling w rx h)
    (he : ∀ ms noise, e ≠ .noBootloader ms noise) : EndsTelling (.error (wrap s e)) h := by
  refine ⟨ht.truthful, ht.announced, ?_⟩
  obtain hw | hw := wrap_cases s e
  · rw [hw]
    cases e with
    | noBootloader ms noise => exact absurd rfl (he ms noise)
    | _ => trivial
  · rw [hw]
    trivial

/-- **The wait for a frame tells what it reads.** -/
theorem awaitRule_telling (session : Session) (x : Send) (deadline : ℕ) :
    AwaitRule session x deadline (fun _ => Telling []) (fun p h => Telling p.1.encode p.2 h ∧
      p.2.discarded = []) EndsTelling where
  spent ht := ⟨ht.truthful, ht.announced, trivial⟩
  frame hn ht := ⟨(ht.frame hn).logged, rfl⟩
  rehunt hn ht := (ht.poll hn (by simp)).logged.concat rfl rfl trivial
  late hn ht _ := ((ht.poll hn (by simp)).look _).wrapped (by simp)
  read hn ht _ _ := ((ht.poll hn (by simp)).look _).read
  fails {fuel rx rx' h t io} hn ht _ := by
    have hfailed := ((ht.poll hn (by simp)).look t).concat (e := .read (.error io)) rfl rfl trivial
    exact hfailed.wrapped (by simp)

/-- **A run tells what it reads and writes.** -/
theorem runRule_telling (w : World) (drain : DrainConfig) :
    RunRule w drain (fun _ _ => Telling []) (fun _ _ _ => Telling [])
      (fun _ _ _ p => Telling [] p.2) (fun _ h => ∃ rx, Telling [] rx h) EndsTelling where
  spent ht := ⟨ht.truthful, ht.announced, trivial⟩
  finished ht _ := ⟨_, ht.call _ _⟩
  sent {fuel s rx h} ht hlt := by
    have hsent : Telling [] rx (h ++ [asked s hlt rx] ++ script drain (request s hlt)) :=
      (ht.call _ _).append (announced_script hlt drain rx h) (script_untold drain _)
    obtain hrx | hrx := receiverFor_cases (request s hlt) rx <;> rw [hrx]
    · exact hsent
    · exact hsent.renew
  broken {fuel s rx h hlt pre op post} io ht hscript := by
    have hall := script_untold drain (request s hlt)
    have hann := announced_script hlt drain rx h
    rw [hscript] at hall hann
    obtain ⟨hpre, hcall⟩ := guardsFrom_append.mp hann
    have hsent := (ht.concat (e := asked s hlt rx) rfl rfl trivial).append hpre
      (List.forall_mem_append.mp hall).1
    refine (hsent.concat rfl rfl ?_).wrapped (by simp)
    have hop := (guardsFrom_cons.mp hcall).1
    cases op with
    | writeAll bytes => exact hop
    | _ => trivial
  silent ht _ := ht
  heard {fuel s hlt rx} _ := by
    refine contract_awaitReply (fun t => ((awaitRule_telling _ _ _).contract fuel rx).pre ?_)
      fun f rx' h hr => ?_
    · rintro _ ⟨h, rfl, ht⟩
      exact ht.look t
    · exact hr.1.logged.reply rfl
  accepted ht _ _ _ _ := ht.call _ _
  rejected ht _ := (ht.call _ _).wrapped (by simp)

/-! ### The log of a handshake -/

/-- The log so far, and the noise counted so far, before any request. -/
def Counting (rx : Receiver) (noise : ℕ) (h : List Event) : Prop :=
  Telling [] rx h ∧ noise = thrown h ∧ lastRequest h = none

/-- Before anything is read, nothing is counted. -/
theorem counting_nil : Counting .new 0 [] :=
  ⟨⟨guardsFrom_nil _, guardsFrom_nil _, [], rfl, trivial⟩, rfl, rfl⟩

/-- An event that tells, brings and asks nothing leaves the count. -/
theorem Counting.concat {noise : ℕ} {e : Event} (hc : Counting rx noise h) (he : e.told = none)
    (hread : e.bytesRead = []) (hreq : e.request = none) : Counting rx noise (h ++ [e]) := by
  obtain ⟨ht, hnoise, hnone⟩ := hc
  refine ⟨ht.concat he hread ?_, ?_, (lastRequest_concat hreq).trans hnone⟩
  · rcases e with ⟨_ | _ | _ | _, _⟩ | _ | _ | _ | _ | _
    case wire.writeAll =>
      intro p hp
      rw [hnone] at hp
      cases hp
    all_goals trivial
  · rw [thrown_append, ← hnoise]
    rcases e with _ | _ | _ | _ | ⟨_ | _ | _ | _⟩ | _
    case log.discarded => cases he
    all_goals rfl

/-- The discarded bytes are counted as they are reported. -/
theorem Counting.logged {noise : ℕ} (hc : Counting rx noise h) :
    Counting rx.takeDiscarded.2 (noise + rx.discarded.length) (h ++ logged rx.discarded) := by
  obtain ⟨ht, hnoise, hnone⟩ := hc
  refine ⟨ht.logged, by rw [thrown_append, thrown_logged, hnoise], ?_⟩
  rw [Driver.logged]
  split
  · rwa [List.append_nil]
  · exact (lastRequest_concat rfl).trans hnone

/-- **The inner loop of the handshake tells what it takes out.** -/
theorem contract_sift_telling (family : ProtocolFamily) (opts : SessionOptions) (rx : Receiver)
    (noise : ℕ) {E : Halt → List Event → Prop} :
    Contract (Counting rx noise) (sift family opts rx noise)
      (fun out => Counting out.2.1 out.2.2) E := by
  fun_induction sift family opts rx noise with
  | case1 rx noise rx' hn =>
      exact contract_pure fun h hc => ⟨hc.1.poll hn (by simp), hc.2⟩
  | case2 rx noise result rx' hn hlt d ih =>
      have hnote : ∀ msg, Contract (Counting rx'.takeDiscarded.2 (noise + d.length))
          (log (.note msg)) (fun _ => Counting rx'.takeDiscarded.2 (noise + d.length)) E :=
        fun msg => contract_emit fun h hc => hc.concat rfl rfl rfl
      cases result with
      | error e =>
          refine Contract.bind (R := fun _ => Counting rx'.takeDiscarded.2 (noise + d.length))
            (contract_logged fun h hc => ?_) fun _ => (hnote _).bind fun _ => ih
          exact Counting.logged ⟨hc.1.poll hn (by simp), hc.2⟩
      | ok frame =>
          refine Contract.bind (R := fun _ h => Telling frame.encode rx'.takeDiscarded.2 h ∧
            noise + d.length = thrown h ∧ lastRequest h = none)
            (contract_logged fun h hc => ?_) fun _ => ?_
          · obtain ⟨ht, hnoise, hnone⟩ := hc
            refine ⟨(ht.frame hn).logged, by rw [thrown_append, thrown_logged, hnoise], ?_⟩
            rw [logged]
            split
            · rwa [List.append_nil]
            · exact (lastRequest_concat rfl).trans hnone
          by_cases hstatus : family.isStatusFrame frame = true
          · simp only [if_pos hstatus]
            refine Contract.bind (R := fun _ => Counting rx'.takeDiscarded.2 (noise + d.length))
              (contract_emit ?_) fun _ => contract_pure fun h hc => hc
            rintro h ⟨ht, hnoise, hnone⟩
            exact ⟨ht.reply rfl, by rw [thrown_append, hnoise]; rfl,
              (lastRequest_concat rfl).trans hnone⟩
          · simp only [if_neg hstatus]
            exact ((hnote _).pre fun h ht => ⟨ht.1.skip rfl, ht.2⟩).bind fun _ => ih

/-- **A handshake tells what it reads**, and counts what it throws away. -/
theorem pulseRule_telling (family : ProtocolFamily) (opts : SessionOptions) (wait started : ℕ) :
    PulseRule family opts wait started (fun _ => Counting) (fun _ => Counting) (fun _ => Counting)
      (fun _ => Counting) (fun _ h => Telling [] .new h) EndsTelling where
  spent hc := ⟨hc.1.truthful, hc.1.announced, trivial⟩
  givesUp {fuel rx noise h t} hc _ := by
    obtain ⟨ht, hnoise, -⟩ := hc.concat (e := .now t) rfl rfl rfl
    exact ⟨ht.truthful, ht.announced, hnoise⟩
  waiting hc _ := hc.concat rfl rfl rfl
  tick t hc := hc.concat rfl rfl rfl
  pulsed _ hc := hc.concat rfl rfl rfl
  broken {fuel rx noise h op} io _ hc := by
    obtain ⟨ht, -⟩ := hc.concat (e := .wire op (.error io)) rfl rfl rfl
    exact ⟨ht.truthful, ht.announced, trivial⟩
  read {fuel rx noise h bytes} hc _ := by
    obtain ⟨ht, hnoise, hnone⟩ := hc
    exact ⟨ht.read, by rw [thrown_append, hnoise]; rfl, (lastRequest_concat rfl).trans hnone⟩
  fails {fuel rx noise h} io hc := by
    obtain ⟨ht, -⟩ := hc.concat (e := .read (.error io)) rfl rfl rfl
    exact ⟨ht.truthful, ht.announced, trivial⟩
  received t hc := hc.concat rfl rfl rfl
  sifted {fuel rx noise} := by
    refine (contract_sift_telling family opts rx noise).post ?_
    rintro ⟨_ | e | info, rx', noise'⟩ h hc
    · exact hc
    · exact ⟨hc.1.truthful, hc.1.announced, trivial⟩
    · exact hc.1.renew
  drained hc := hc.logged

/-- A handshake tells what it reads; and the run that follows starts with a new receiver. -/
theorem handshake_telling (w : World) (opts : SessionOptions) (wait fuel : ℕ) :
    Contract (fun h => h = []) (handshake w family opts wait fuel)
      (fun _ h => Telling [] .new h) EndsTelling := by
  refine contract_handshake (H := fun _ => Counting .new 0) ?_ ?_ fun started =>
    (pulseRule_telling family opts wait started).contract w fuel .new 0 _ _
  · rintro _ io rfl
    have hfail : Telling [] .new [Event.wire (.setBaud opts.handshakeBaud) (.error io)] :=
      counting_nil.1.concat (h := []) rfl rfl trivial
    exact ⟨hfail.truthful, hfail.announced, trivial⟩
  · rintro _ started rfl
    exact (counting_nil.concat (h := []) rfl rfl rfl).concat rfl rfl rfl

end Driver

/-! ### The log of the program -/

open Driver

/-- What a line of the log adds to the running total. -/
theorem CliLog.noise_line (l : CliLog) (line : LogLine) :
    (l.line line).2.noise = l.noise + thrown [.log line] := by
  rw [CliLog.line.eq_def]
  cases line with
  | step label bytes =>
      dsimp only
      split
      · rfl
      · split <;> rfl
  | reply frame =>
      dsimp only
      split <;> rfl
  | note msg => rfl
  | discarded d =>
      dsimp only
      split <;> rfl

/-- The running total of the command line is that of the bytes told of. -/
theorem CliLog.noise_behind (l : CliLog) (h : List Driver.Event) :
    (l.behind h).noise = l.noise + thrown h := by
  induction h generalizing l with
  | nil => rfl
  | cons e h ih =>
      have hstep : l.behind (e :: h) = (l.behind [e]).behind h := rfl
      have hone : (l.behind [e]).noise = l.noise + thrown [e] := by
        cases e with
        | log line => exact l.noise_line line
        | _ => rfl
      have hcons : thrown (e :: h) = thrown [e] + thrown h := thrown_append [e] h
      rw [hstep, ih, hone, hcons, Nat.add_assoc]

/-- **The log of a session.** -/
theorem session_telling (w : World) (opts : SessionOptions) (wait : ℕ) (drain : DrainConfig)
    (job : Job) (fuel : ℕ) :
    Contract (fun h => h = []) (session w opts wait drain job fuel)
      (fun _ h => ∃ rx, Telling [] rx h)
      fun e h => GuardsFrom Truthful [] h ∧ GuardsFrom Announced [] h ∧
        ∀ ms noise, e = .failure (.driver (.noBootloader ms noise)) → noise = thrown h := by
  refine contract_session (handshake_telling w opts wait fuel) ?_ ?_ ?_
  · rintro info h e ht -
    exact ⟨ht.truthful, ht.announced, fun _ _ hbad => by cases hbad⟩
  · exact fun info steps _ => (runRule_telling w drain).contract fuel .new rfl
  · rintro halt h ⟨htruth, hann, hnoise⟩
    refine ⟨htruth, hann, ?_⟩
    rintro ms noise he
    cases halt with
    | error e =>
        cases he
        exact hnoise
    | unreachable => cases he
    | outOfFuel => cases he

/-- **The log of the program tells the truth**, for any command line, any files and ports, and
whatever the wire and the clock do. The bytes it reports as discarded and the replies it reports
stand in what was read, in this order and without overlap, and at every event nothing is told
that was not read before; the line before a request is written names that request and shows
its bytes; and a handshake that gives up counts as noise just what the log reports as discarded,
which is the running total that `CliLog` prints, quiet or not. -/
theorem main_tells (m : Machine) (argv : List String) (fuel : ℕ) :
    GuardsFrom Truthful [] (main m argv fuel).2 ∧ GuardsFrom Announced [] (main m argv fuel).2 ∧
      ∀ ms noise quiet,
        (main m argv fuel).1 = .error (.failure (.driver (.noBootloader ms noise))) →
          noise = ((CliLog.mk quiet 0).behind (main m argv fuel).2).noise := by
  obtain ⟨hnil, hearly, -⟩ | ⟨args, job, port, w, -, -, -, -, hmain⟩ := main_cases m argv fuel
  · rw [hnil]
    exact ⟨guardsFrom_nil _, guardsFrom_nil _, fun ms noise quiet he => (hearly _ he).elim⟩
  have hends := session_telling w args.sessionOptions args.wait args.drainConfig job fuel [] rfl
  rw [hmain]
  rcases hr : session w args.sessionOptions args.wait args.drainConfig job fuel [] with ⟨e | _, t⟩
  · rw [hr] at hends
    obtain ⟨htruth, hann, hnoise⟩ := hends
    refine ⟨htruth, hann, fun ms noise quiet he => ?_⟩
    rw [CliLog.noise_behind, Nat.zero_add]
    exact hnoise ms noise (by simpa [Except.map] using he)
  · rw [hr] at hends
    obtain ⟨rx, ht⟩ := hends
    exact ⟨ht.truthful, ht.announced, fun ms noise quiet he => by cases he⟩

end Stcbsl
