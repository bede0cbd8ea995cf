import Mathlib.Data.List.Induction
import Stcbsl.Driver
import Stcbsl.Numerals

/-!
# The Command Line

The arguments of `stcbsl`, read from left to right: options, each with the value behind it where
it takes one, the first other word as the command and the further ones as its arguments. The
reader stops at the first argument it cannot take, and at a request for help.

## Settings

A command line is told by the settings it spells (`Spelled`), whatever names and numerals are
used for them; what is read is what these settings say, the last one of a kind counting
(`Args.of`). Every command line spells settings up to its end, or up to an argument that it is
refused for, and not both. The reader is exact in either case.

## What can be asked for

Not every value of `Args` comes out of the reader: no word begins like an option, since it would
have been read as one, and there is no argument without a command. All others do, and `render` is
a command line for each, in a canonical spelling with decimal numerals.

## Main results

* `parseArgs_complete` — every command line spells settings, up to its end or up to what it is
  refused for.
* `parseArgs_exact` — what is read, and when and why a command line is refused.
* `parseArgs_range` — what can be read, and a command line for each of it.
-/

namespace Stcbsl

open Numerals Driver

/-! ### Numbers -/

/-- `str::parse::<u32>`. -/
def parseU32 (s : String) : Option UInt32 :=
  (readUnsigned 10 (2 ^ 32) s.toList).map UInt32.ofNat

/-- `str::parse::<u64>`. -/
def parseU64 (s : String) : Option UInt64 :=
  (readUnsigned 10 (2 ^ 64) s.toList).map UInt64.ofNat

/-- `str::parse::<u8>`. -/
def parseU8 (s : String) : Option UInt8 := (readUnsigned 10 (2 ^ 8) s.toList).map UInt8.ofNat

/-- `str::parse::<i64>`. -/
def parseI64 (s : String) : Option Int64 :=
  (readSigned 10 (2 ^ 63) s.toList).map Int64.ofInt

/-! ### The reader of the source -/

/-- `Args`. -/
structure Args where
  port : Option String
  transferBaud : UInt32
  handshakeBaud : UInt32
  parityEven : Bool
  waitS : UInt64
  blocks : Option UInt8
  writeOptions : Bool
  quiet : Bool
  drainMode : DrainMode
  drainMarginMs : Int64
  command : Option String
  positional : List String
  deriving DecidableEq, Repr

/-- The values in front of the loop of `parse_args`. -/
def Args.default : Args :=
  { port := none, transferBaud := 115200, handshakeBaud := 2400, parityEven := false, waitS := 30,
    blocks := none, writeOptions := true, quiet := false, drainMode := DrainConfig.default.mode,
    drainMarginMs := DrainConfig.default.marginMs, command := none, positional := [] }

/-- Why `parse_args` does not return `Ok`. The `got` of `unexpected` is shown in quotes behind
the text. -/
inductive Refusal
  /-- the usage is printed, and the program exits -/
  | help
  | needsValue (what : String)
  | invalid (text : String)
  | unexpected (text got : String)
  deriving DecidableEq, Repr

/-- A parsed value is set, or complained of. -/
def setParsed {α : Type} (text : String) (set : Args → α → Args) (a : Args) :
    Option α → Except Refusal Args
  | some n => .ok (set a n)
  | none => .error (.invalid text)

/-- What is done about an argument. -/
inductive Opt
  | help
  | flag (set : Args → Args)
  | valued (what : String) (set : Args → String → Except Refusal Args)
  | unknown
  | word

/-- The arms of the `match` of `parse_args`. -/
def optionOf (arg : String) : Opt :=
  if arg = "-h" ∨ arg = "--help" then .help
  else if arg = "-q" ∨ arg = "--quiet" then .flag fun a => { a with quiet := true }
  else if arg = "-p" ∨ arg = "--port" then
    .valued "--port" fun a v => .ok { a with port := some v }
  else if arg = "--baud" then
    .valued "--baud" fun a v =>
      setParsed "--baud: not a number" (fun a n => { a with transferBaud := n }) a (parseU32 v)
  else if arg = "--handshake-baud" then
    .valued "--handshake-baud" fun a v =>
      setParsed "--handshake-baud: not a number" (fun a n => { a with handshakeBaud := n }) a
        (parseU32 v)
  else if arg = "--drain-mode" then
    .valued "--drain-mode" fun a v =>
      if v = "tcdrain" then .ok { a with drainMode := .tcDrain }
      else if v = "wire" then .ok { a with drainMode := .computeWireTime }
      else .error (.unexpected "--drain-mode: expected tcdrain|wire, got " v)
  else if arg = "--drain-margin" then
    .valued "--drain-margin" fun a v =>
      setParsed "--drain-margin: not an integer (ms, may be negative)"
        (fun a n => { a with drainMarginMs := n }) a (parseI64 v)
  else if arg = "--parity" then
    .valued "--parity" fun a v =>
      if v = "none" then .ok { a with parityEven := false }
      else if v = "even" then .ok { a with parityEven := true }
      else .error (.unexpected "--parity: expected none|even, got " v)
  else if arg = "--wait" then
    .valued "--wait" fun a v =>
      setParsed "--wait: not a number" (fun a n => { a with waitS := n }) a (parseU64 v)
  else if arg = "--blocks" then
    .valued "--blocks" fun a v =>
      setParsed "--blocks: not a byte" (fun a n => { a with blocks := some n }) a (parseU8 v)
  else if arg = "--keep-options" then .flag fun a => { a with writeOptions := true }
  else if arg = "--skip-options" then .flag fun a => { a with writeOptions := false }
  else if arg.toList.head? = some '-' then .unknown
  else .word

/-- The first word is the command. -/
def Args.addWord (a : Args) (w : String) : Args :=
  match a.command with
  | none => { a with command := some w }
  | some _ => { a with positional := a.positional ++ [w] }

/-- The loop of `parse_args`, from an argument on. -/
def parseFrom : List String → Args → Except Refusal Args
  | [], a => .ok a
  | arg :: rest, a =>
      match optionOf arg with
      | .help => .error .help
      | .flag set => parseFrom rest (set a)
      | .valued what set =>
          match rest with
          | [] => .error (.needsValue what)
          | v :: rest =>
              match set a v with
              | .error e => .error e
              | .ok a => parseFrom rest a
      | .unknown => .error (.unexpected "unknown option " arg)
      | .word => parseFrom rest (a.addWord arg)

/-- `parse_args`. -/
def parseArgs (argv : List String) : Except Refusal Args := parseFrom argv .default

/-! ### Settings -/

/-- What one option or word says. -/
inductive Setting
  | quiet
  | port (v : String)
  | transferBaud (n : UInt32)
  | handshakeBaud (n : UInt32)
  | drainMode (m : DrainMode)
  | drainMargin (ms : Int64)
  | parityEven (even : Bool)
  | wait (s : UInt64)
  | blocks (n : UInt8)
  | writeOptions (b : Bool)
  | word (w : String)
  deriving DecidableEq, Repr

namespace Setting

/-- What a setting changes. -/
def apply (a : Args) : Setting → Args
  | quiet => { a with quiet := true }
  | port v => { a with port := some v }
  | transferBaud n => { a with transferBaud := n }
  | handshakeBaud n => { a with handshakeBaud := n }
  | drainMode m => { a with drainMode := m }
  | drainMargin ms => { a with drainMarginMs := ms }
  | parityEven even => { a with parityEven := even }
  | wait s => { a with waitS := s }
  | blocks n => { a with blocks := some n }
  | writeOptions b => { a with writeOptions := b }
  | word w => a.addWord w

/-- **The arguments that spell a setting.** -/
inductive Spells : Setting → List String → Prop
  | quiet {arg : String} (h : arg = "-q" ∨ arg = "--quiet") : Spells quiet [arg]
  | port {arg : String} (h : arg = "-p" ∨ arg = "--port") (v : String) : Spells (port v) [arg, v]
  | transferBaud {v : String} {n : UInt32} (h : parseU32 v = some n) :
      Spells (transferBaud n) ["--baud", v]
  | handshakeBaud {v : String} {n : UInt32} (h : parseU32 v = some n) :
      Spells (handshakeBaud n) ["--handshake-baud", v]
  | tcDrain : Spells (drainMode .tcDrain) ["--drain-mode", "tcdrain"]
  | computeWireTime : Spells (drainMode .computeWireTime) ["--drain-mode", "wire"]
  | drainMargin {v : String} {ms : Int64} (h : parseI64 v = some ms) :
      Spells (drainMargin ms) ["--drain-margin", v]
  | parityNone : Spells (parityEven false) ["--parity", "none"]
  | parityEven : Spells (parityEven true) ["--parity", "even"]
  | wait {v : String} {s : UInt64} (h : parseU64 v = some s) : Spells (wait s) ["--wait", v]
  | blocks {v : String} {n : UInt8} (h : parseU8 v = some n) : Spells (blocks n) ["--blocks", v]
  | keepOptions : Spells (writeOptions true) ["--keep-options"]
  | skipOptions : Spells (writeOptions false) ["--skip-options"]
  | word {w : String} (h : w.toList.head? ≠ some '-') : Spells (word w) [w]

end Setting

/-- Settings, spelled one behind the other. -/
inductive Spelled : List Setting → List String → Prop
  | nil : Spelled [] []
  | cons {s : Setting} {ss : List Setting} {args rest : List String} (h : s.Spells args)
      (hrest : Spelled ss rest) : Spelled (s :: ss) (args ++ rest)

/-- The options that take a value, with the name that is complained of. -/
def valueOptions : List (String × String) :=
  [("-p", "--port"), ("--port", "--port"), ("--baud", "--baud"),
    ("--handshake-baud", "--handshake-baud"), ("--drain-mode", "--drain-mode"),
    ("--drain-margin", "--drain-margin"), ("--parity", "--parity"), ("--wait", "--wait"),
    ("--blocks", "--blocks")]

/-- The options that take none. -/
def flagOptions : List String :=
  ["-h", "--help", "-q", "--quiet", "--keep-options", "--skip-options"]

/-- **What a command line is refused for**: the arguments from the first one on that cannot be
taken. -/
inductive Refused : Refusal → List String → Prop
  | help {arg : String} (h : arg = "-h" ∨ arg = "--help") (rest : List String) :
      Refused .help (arg :: rest)
  | needsValue {arg what : String} (h : (arg, what) ∈ valueOptions) :
      Refused (.needsValue what) [arg]
  | transferBaud {v : String} (h : parseU32 v = none) (rest : List String) :
      Refused (.invalid "--baud: not a number") ("--baud" :: v :: rest)
  | handshakeBaud {v : String} (h : parseU32 v = none) (rest : List String) :
      Refused (.invalid "--handshake-baud: not a number") ("--handshake-baud" :: v :: rest)
  | drainMode {v : String} (h : v ≠ "tcdrain" ∧ v ≠ "wire") (rest : List String) :
      Refused (.unexpected "--drain-mode: expected tcdrain|wire, got " v)
        ("--drain-mode" :: v :: rest)
  | drainMargin {v : String} (h : parseI64 v = none) (rest : List String) :
      Refused (.invalid "--drain-margin: not an integer (ms, may be negative)")
        ("--drain-margin" :: v :: rest)
  | parity {v : String} (h : v ≠ "none" ∧ v ≠ "even") (rest : List String) :
      Refused (.unexpected "--parity: expected none|even, got " v) ("--parity" :: v :: rest)
  | wait {v : String} (h : parseU64 v = none) (rest : List String) :
      Refused (.invalid "--wait: not a number") ("--wait" :: v :: rest)
  | blocks {v : String} (h : parseU8 v = none) (rest : List String) :
      Refused (.invalid "--blocks: not a byte") ("--blocks" :: v :: rest)
  | unknown {arg : String} (h : arg.toList.head? = some '-')
      (hvalue : arg ∉ valueOptions.map Prod.fst) (hflag : arg ∉ flagOptions)
      (rest : List String) : Refused (.unexpected "unknown option " arg) (arg :: rest)

/-! ### The reader, one argument at a time -/

/-- The options of the reader are the listed ones. -/
theorem optionOf_of_not_mem {arg : String} (hvalue : arg ∉ valueOptions.map Prod.fst)
    (hflag : arg ∉ flagOptions) :
    optionOf arg = if arg.toList.head? = some '-' then .unknown else .word := by
  simp only [valueOptions, flagOptions, List.map_cons, List.map_nil, List.mem_cons,
    List.not_mem_nil, or_false, not_or] at hvalue hflag
  simp [optionOf, hvalue, hflag]

/-- A word is none of the options. -/
theorem optionOf_word {w : String} (h : w.toList.head? ≠ some '-') : optionOf w = .word := by
  have hdash : ∀ o ∈ valueOptions.map Prod.fst ++ flagOptions, o.toList.head? = some '-' := by
    decide
  have hnot := fun hmem => h (hdash w hmem)
  rw [optionOf_of_not_mem (fun hmem => hnot (List.mem_append_left _ hmem))
    (fun hmem => hnot (List.mem_append_right _ hmem)), if_neg h]

/-- **What spells a setting is taken for it.** -/
theorem parseFrom_spells {s : Setting} {args : List String} (h : s.Spells args)
    (rest : List String) (a : Args) : parseFrom (args ++ rest) a = parseFrom rest (s.apply a) := by
  cases h with
  | quiet h => rcases h with rfl | rfl <;> rfl
  | port h v => rcases h with rfl | rfl <;> rfl
  | transferBaud h => simp [parseFrom, optionOf, h, setParsed, Setting.apply]
  | handshakeBaud h => simp [parseFrom, optionOf, h, setParsed, Setting.apply]
  | tcDrain => rfl
  | computeWireTime => rfl
  | drainMargin h => simp [parseFrom, optionOf, h, setParsed, Setting.apply]
  | parityNone => rfl
  | parityEven => rfl
  | wait h => simp [parseFrom, optionOf, h, setParsed, Setting.apply]
  | blocks h => simp [parseFrom, optionOf, h, setParsed, Setting.apply]
  | keepOptions => rfl
  | skipOptions => rfl
  | word h =>
      show parseFrom (_ :: rest) a = _
      rw [parseFrom, optionOf_word h]
      rfl

/-- **What cannot be taken is refused.** -/
theorem parseFrom_refused {e : Refusal} {argv : List String} (h : Refused e argv) (a : Args) :
    parseFrom argv a = .error e := by
  cases h with
  | help h => rcases h with rfl | rfl <;> rfl
  | needsValue h =>
      simp only [valueOptions, List.mem_cons, List.not_mem_nil, Prod.mk.injEq, or_false] at h
      rcases h with ⟨rfl, rfl⟩ | ⟨rfl, rfl⟩ | ⟨rfl, rfl⟩ | ⟨rfl, rfl⟩ | ⟨rfl, rfl⟩ |
        ⟨rfl, rfl⟩ | ⟨rfl, rfl⟩ | ⟨rfl, rfl⟩ | ⟨rfl, rfl⟩ <;> rfl
  | transferBaud h => simp [parseFrom, optionOf, h, setParsed]
  | handshakeBaud h => simp [parseFrom, optionOf, h, setParsed]
  | drainMode h => simp [parseFrom, optionOf, h]
  | drainMargin h => simp [parseFrom, optionOf, h, setParsed]
  | parity h => simp [parseFrom, optionOf, h]
  | wait h => simp [parseFrom, optionOf, h, setParsed]
  | blocks h => simp [parseFrom, optionOf, h, setParsed]
  | unknown h hvalue hflag rest =>
      rw [parseFrom, optionOf_of_not_mem hvalue hflag, if_pos h]

/-! ### Every command line -/

/-- **An option that takes a value** and the argument behind it are a setting, or refused. -/
theorem taken_or_refused_value {arg what : String} (h : (arg, what) ∈ valueOptions) (v : String)
    (rest : List String) :
    (∃ s : Setting, s.Spells [arg, v]) ∨ ∃ e, Refused e (arg :: v :: rest) := by
  simp only [valueOptions, List.mem_cons, Prod.mk.injEq, List.not_mem_nil, or_false] at h
  rcases h with ⟨rfl, -⟩ | ⟨rfl, -⟩ | ⟨rfl, -⟩ | ⟨rfl, -⟩ | ⟨rfl, -⟩ | ⟨rfl, -⟩ | ⟨rfl, -⟩ |
    ⟨rfl, -⟩ | ⟨rfl, -⟩
  · exact .inl ⟨_, .port (.inl rfl) v⟩
  · exact .inl ⟨_, .port (.inr rfl) v⟩
  · cases hv : parseU32 v with
    | none => exact .inr ⟨_, .transferBaud hv rest⟩
    | some n => exact .inl ⟨_, .transferBaud hv⟩
  · cases hv : parseU32 v with
    | none => exact .inr ⟨_, .handshakeBaud hv rest⟩
    | some n => exact .inl ⟨_, .handshakeBaud hv⟩
  · by_cases htc : v = "tcdrain"
    · subst htc
      exact .inl ⟨_, .tcDrain⟩
    by_cases hwire : v = "wire"
    · subst hwire
      exact .inl ⟨_, .computeWireTime⟩
    · exact .inr ⟨_, .drainMode ⟨htc, hwire⟩ rest⟩
  · cases hv : parseI64 v with
    | none => exact .inr ⟨_, .drainMargin hv rest⟩
    | some n => exact .inl ⟨_, .drainMargin hv⟩
  · by_cases hnone : v = "none"
    · subst hnone
      exact .inl ⟨_, .parityNone⟩
    by_cases heven : v = "even"
    · subst heven
      exact .inl ⟨_, .parityEven⟩
    · exact .inr ⟨_, .parity ⟨hnone, heven⟩ rest⟩
  · cases hv : parseU64 v with
    | none => exact .inr ⟨_, .wait hv rest⟩
    | some n => exact .inl ⟨_, .wait hv⟩
  · cases hv : parseU8 v with
    | none => exact .inr ⟨_, .blocks hv rest⟩
    | some n => exact .inl ⟨_, .blocks hv⟩

/-- **An option that takes none** is a setting, or asks for help. -/
theorem taken_or_refused_flag {arg : String} (h : arg ∈ flagOptions) (rest : List String) :
    (∃ s : Setting, s.Spells [arg]) ∨ ∃ e, Refused e (arg :: rest) := by
  simp only [flagOptions, List.mem_cons, List.not_mem_nil, or_false] at h
  rcases h with rfl | rfl | rfl | rfl | rfl | rfl
  · exact .inr ⟨_, .help (.inl rfl) rest⟩
  · exact .inr ⟨_, .help (.inr rfl) rest⟩
  · exact .inl ⟨_, .quiet (.inl rfl)⟩
  · exact .inl ⟨_, .quiet (.inr rfl)⟩
  · exact .inl ⟨_, .keepOptions⟩
  · exact .inl ⟨_, .skipOptions⟩

/-- **The first argument** is part of a setting, or refused. -/
theorem taken_or_refused (arg : String) (rest : List String) :
    (∃ (s : Setting) (args rest' : List String), s.Spells args ∧ arg :: rest = args ++ rest') ∨
      ∃ e, Refused e (arg :: rest) := by
  by_cases hvalue : arg ∈ valueOptions.map Prod.fst
  · obtain ⟨⟨o, what⟩, hmem, rfl⟩ := List.mem_map.mp hvalue
    cases rest with
    | nil => exact .inr ⟨_, .needsValue hmem⟩
    | cons v rest =>
        exact (taken_or_refused_value hmem v rest).imp_left fun ⟨s, hs⟩ => ⟨s, _, rest, hs, rfl⟩
  by_cases hflag : arg ∈ flagOptions
  · exact (taken_or_refused_flag hflag rest).imp_left fun ⟨s, hs⟩ => ⟨s, _, rest, hs, rfl⟩
  by_cases hdash : arg.toList.head? = some '-'
  · exact .inr ⟨_, .unknown hdash hvalue hflag rest⟩
  · exact .inl ⟨_, _, rest, .word hdash, rfl⟩

/-- A setting is spelled by one argument at least. -/
theorem Setting.Spells.length_pos {s : Setting} {args : List String} (h : s.Spells args) :
    0 < args.length := by
  cases h <;> exact Nat.succ_pos _

/-- **Every command line spells settings**, up to its end or up to what it is refused for. -/
theorem parseArgs_complete (argv : List String) :
    ∃ ss pre, Spelled ss pre ∧
      (argv = pre ∨ ∃ rest e, argv = pre ++ rest ∧ Refused e rest) := by
  induction hn : argv.length using Nat.strongRecOn generalizing argv with
  | ind n ih =>
      cases argv with
      | nil => exact ⟨[], [], .nil, .inl rfl⟩
      | cons arg rest =>
          rcases taken_or_refused arg rest with ⟨s, args, rest', hs, heq⟩ | ⟨e, he⟩
          · rw [heq] at hn ⊢
            rw [List.length_append] at hn
            have hpos := hs.length_pos
            obtain ⟨ss, pre, hpre, hend⟩ := ih rest'.length (by omega) rest' rfl
            refine ⟨s :: ss, args ++ pre, .cons hs hpre, ?_⟩
            rcases hend with rfl | ⟨rest'', e, rfl, he⟩
            · exact .inl rfl
            · exact .inr ⟨rest'', e, (List.append_assoc _ _ _).symm, he⟩
          · exact ⟨[], [], .nil, .inr ⟨_, e, rfl, he⟩⟩

/-- Settings that are spelled out change the values one after the other, and the rest is read from
there. The induction is on the settings. -/
theorem parseFrom_spelled {ss : List Setting} {args : List String} (h : Spelled ss args)
    (rest : List String) (a : Args) :
    parseFrom (args ++ rest) a = parseFrom rest (ss.foldl Setting.apply a) := by
  induction h generalizing a with
  | nil => rfl
  | cons hs _ ih => rw [List.append_assoc, parseFrom_spells hs, ih, List.foldl_cons]

/-! ### What the settings say -/

/-- The last value of a kind among the settings. -/
def lastOf {α : Type} (kind : Setting → Option α) (ss : List Setting) : Option α :=
  (ss.filterMap kind).getLast?

/-- The words among the settings. -/
def wordsOf (ss : List Setting) : List String :=
  ss.filterMap fun | .word w => some w | _ => none

/-- **What settings say**: the last one of a kind counts; the first word is the command. -/
def Args.of (ss : List Setting) : Args where
  port := lastOf (fun | .port v => some v | _ => none) ss
  transferBaud := (lastOf (fun | .transferBaud n => some n | _ => none) ss).getD 115200
  handshakeBaud := (lastOf (fun | .handshakeBaud n => some n | _ => none) ss).getD 2400
  parityEven := (lastOf (fun | .parityEven b => some b | _ => none) ss).getD false
  waitS := (lastOf (fun | .wait n => some n | _ => none) ss).getD 30
  blocks := lastOf (fun | .blocks n => some n | _ => none) ss
  writeOptions := (lastOf (fun | .writeOptions b => some b | _ => none) ss).getD true
  quiet := decide (Setting.quiet ∈ ss)
  drainMode := (lastOf (fun | .drainMode m => some m | _ => none) ss).getD .tcDrain
  drainMarginMs := (lastOf (fun | .drainMargin n => some n | _ => none) ss).getD 100
  command := (wordsOf ss).head?
  positional := (wordsOf ss).tail

/-- A further setting counts if it is of the kind, and else the last one before it. -/
theorem lastOf_concat {α : Type} (kind : Setting → Option α) (ss : List Setting) (s : Setting) :
    lastOf kind (ss ++ [s]) = (kind s).or (lastOf kind ss) := by
  rw [lastOf, lastOf, List.filterMap_append, List.getLast?_append]
  cases hs : kind s <;> simp [hs]

/-- The words of two lists of settings, one behind the other. -/
theorem wordsOf_append (ss ss' : List Setting) : wordsOf (ss ++ ss') = wordsOf ss ++ wordsOf ss' :=
  List.filterMap_append

/-- A further setting changes what it is about, and nothing else. -/
theorem Args.of_concat (ss : List Setting) (s : Setting) :
    Args.of (ss ++ [s]) = s.apply (Args.of ss) := by
  cases s with
  | word w =>
      have hwords : wordsOf (ss ++ [.word w]) = wordsOf ss ++ [w] := wordsOf_append _ _
      cases hw : wordsOf ss with
      | nil => simp [Args.of, lastOf_concat, hwords, hw, Setting.apply, Args.addWord]
      | cons c ws => simp [Args.of, lastOf_concat, hwords, hw, Setting.apply, Args.addWord]
  | _ => simp [Args.of, lastOf_concat, wordsOf, Setting.apply]

/-- **What the settings change, all together**: each value is what the last setting of its kind
says. -/
theorem foldl_apply (ss : List Setting) : ss.foldl Setting.apply .default = Args.of ss := by
  induction ss using List.reverseRecOn with
  | nil => rfl
  | append_singleton ss s ih => rw [List.foldl_concat, ih, Args.of_concat]

/-- A command line that spells settings is read as what they say. -/
theorem parseArgs_of_spelled {ss : List Setting} {argv : List String} (h : Spelled ss argv) :
    parseArgs argv = .ok (Args.of ss) := by
  have hfrom := parseFrom_spelled h [] .default
  rw [List.append_nil, foldl_apply] at hfrom
  exact hfrom

/-- A command line that spells settings up to an argument that cannot be taken is refused for it. -/
theorem parseArgs_of_refused {ss : List Setting} {pre rest : List String} {e : Refusal}
    (hpre : Spelled ss pre) (he : Refused e rest) : parseArgs (pre ++ rest) = .error e :=
  (parseFrom_spelled hpre rest .default).trans (parseFrom_refused he _)

/-- **The command line is read exactly.** What is read is what the settings spelled on it say,
the last one of a kind counting, in whatever order they stand and whatever is used to spell
them. A command line is refused where the settings spelled on it end before it does, for the
first argument behind them. -/
theorem parseArgs_exact (argv : List String) :
    (∀ a, parseArgs argv = .ok a ↔ ∃ ss, Spelled ss argv ∧ a = Args.of ss) ∧
    ∀ e, parseArgs argv = .error e ↔
      ∃ ss pre rest, Spelled ss pre ∧ argv = pre ++ rest ∧ Refused e rest := by
  have herr : ∀ {ss pre rest e}, Spelled ss pre → argv = pre ++ rest → Refused e rest →
      parseArgs argv = .error e := by
    rintro ss pre rest e hpre rfl he
    exact parseArgs_of_refused hpre he
  obtain ⟨ss, pre, hpre, rfl | ⟨rest, e, heq, he⟩⟩ := parseArgs_complete argv
  · refine ⟨fun a => ⟨fun h => ?_, ?_⟩, fun e => ⟨fun h => ?_, ?_⟩⟩
    · rw [parseArgs_of_spelled hpre] at h
      cases h
      exact ⟨ss, hpre, rfl⟩
    · rintro ⟨ss', hss', rfl⟩
      exact parseArgs_of_spelled hss'
    · rw [parseArgs_of_spelled hpre] at h
      cases h
    · rintro ⟨ss', pre', rest, hpre', heq, he⟩
      exact herr hpre' heq he
  · refine ⟨fun a => ⟨fun h => ?_, ?_⟩, fun e' => ⟨fun h => ?_, ?_⟩⟩
    · rw [herr hpre heq he] at h
      cases h
    · rintro ⟨ss', hss', rfl⟩
      exact parseArgs_of_spelled hss'
    · rw [herr hpre heq he] at h
      cases h
      exact ⟨ss, pre, rest, hpre, heq, he⟩
    · rintro ⟨ss', pre', rest', hpre', heq', he'⟩
      exact herr hpre' heq' he'

/-! ### What can be asked for -/

/-- A number in decimal digits. -/
def decimal (n : ℕ) : String := String.ofList (Nat.toDigits 10 n)

/-- A number in decimal digits, behind a sign where it is negative. -/
def signedDecimal (z : ℤ) : String :=
  if z < 0 then String.ofList ('-' :: Nat.toDigits 10 z.natAbs) else decimal z.natAbs

/-- A number below the bound is read from its decimal digits. -/
theorem readUnsigned_decimal {bound n : ℕ} (hn : n < bound) :
    readUnsigned 10 bound (decimal n).toList = some n := by
  rw [decimal, String.toList_ofList]
  exact readUnsigned_toDigits (by decide) (by decide) hn

/-- The digits of a byte are read as that byte. -/
theorem parseU8_decimal (n : UInt8) : parseU8 (decimal n.toNat) = some n := by
  rw [parseU8, readUnsigned_decimal n.toNat_lt, Option.map_some, UInt8.ofNat_toNat]

/-- The digits of a 32-bit number are read as that number. -/
theorem parseU32_decimal (n : UInt32) : parseU32 (decimal n.toNat) = some n := by
  rw [parseU32, readUnsigned_decimal n.toNat_lt, Option.map_some, UInt32.ofNat_toNat]

/-- The digits of a 64-bit number are read as that number. -/
theorem parseU64_decimal (n : UInt64) : parseU64 (decimal n.toNat) = some n := by
  rw [parseU64, readUnsigned_decimal n.toNat_lt, Option.map_some, UInt64.ofNat_toNat]

/-- A signed number is read from its digits, with the sign before them. -/
theorem parseI64_signedDecimal (z : Int64) : parseI64 (signedDecimal z.toInt) = some z := by
  have hread : readSigned 10 (2 ^ 63) (signedDecimal z.toInt).toList = some z.toInt := by
    have hdigits : Numerals.Spells 10 _ _ :=
      spells_toDigits (by decide) (by decide) z.toInt.natAbs
    refine readSigned_eq_some_iff.mpr ⟨⟨z.le_toInt, z.toInt_lt⟩, _, _, hdigits, ?_⟩
    rw [signedDecimal]
    split
    · exact .inr ⟨String.toList_ofList, by omega⟩
    · exact .inl ⟨.inl String.toList_ofList, by omega⟩
  rw [parseI64, hread, Option.map_some, Int64.ofInt_toInt]

/-- A word is one where it does not begin like an option. -/
def Setting.Sayable : Setting → Prop
  | word w => w.toList.head? ≠ some '-'
  | _ => True

/-- A setting, spelled out. -/
def Setting.spelling : Setting → List String
  | quiet => ["--quiet"]
  | port v => ["--port", v]
  | transferBaud n => ["--baud", decimal n.toNat]
  | handshakeBaud n => ["--handshake-baud", decimal n.toNat]
  | drainMode .tcDrain => ["--drain-mode", "tcdrain"]
  | drainMode .computeWireTime => ["--drain-mode", "wire"]
  | drainMargin ms => ["--drain-margin", signedDecimal ms.toInt]
  | parityEven false => ["--parity", "none"]
  | parityEven true => ["--parity", "even"]
  | wait s => ["--wait", decimal s.toNat]
  | blocks n => ["--blocks", decimal n.toNat]
  | writeOptions true => ["--keep-options"]
  | writeOptions false => ["--skip-options"]
  | word w => [w]

/-- The canonical spelling of a setting spells it. -/
theorem Setting.spells_spelling {s : Setting} (h : s.Sayable) : s.Spells s.spelling := by
  cases s with
  | quiet => exact .quiet (.inr rfl)
  | port v => exact .port (.inr rfl) v
  | transferBaud n => exact .transferBaud (parseU32_decimal n)
  | handshakeBaud n => exact .handshakeBaud (parseU32_decimal n)
  | drainMode m =>
      cases m with
      | tcDrain => exact .tcDrain
      | computeWireTime => exact .computeWireTime
  | drainMargin ms => exact .drainMargin (parseI64_signedDecimal ms)
  | parityEven even =>
      cases even with
      | false => exact .parityNone
      | true => exact .parityEven
  | wait s => exact .wait (parseU64_decimal s)
  | blocks n => exact .blocks (parseU8_decimal n)
  | writeOptions b =>
      cases b with
      | false => exact .skipOptions
      | true => exact .keepOptions
  | word w => exact .word h

/-- What settings spelled on a command line are like. -/
theorem sayable_of_spelled {ss : List Setting} {argv : List String} (h : Spelled ss argv) :
    ∀ s ∈ ss, s.Sayable := by
  induction h with
  | nil => exact fun s hs => absurd hs List.not_mem_nil
  | cons hs _ ih =>
      refine List.forall_mem_cons.mpr ⟨?_, ih⟩
      cases hs with
      | word hw => exact hw
      | _ => trivial

/-- The canonical spellings, one behind the other, spell the settings. -/
theorem spelled_spelling {ss : List Setting} (h : ∀ s ∈ ss, s.Sayable) :
    Spelled ss (ss.flatMap Setting.spelling) := by
  induction ss with
  | nil => exact .nil
  | cons s ss ih =>
      obtain ⟨hs, hss⟩ := List.forall_mem_cons.mp h
      exact .cons (Setting.spells_spelling hs) (ih hss)

namespace Args

/-- The command and the words behind it. -/
def words (a : Args) : List String := a.command.toList ++ a.positional

/-- What a command line can ask for: no word begins like an option, and none stands behind a
command that is missing. -/
def Sayable (a : Args) : Prop :=
  (∀ w ∈ a.words, w.toList.head? ≠ some '-') ∧ (a.command = none → a.positional = [])

/-- Settings that say all there is. -/
def settings (a : Args) : List Setting :=
  (a.port.map .port).toList ++ [.transferBaud a.transferBaud, .handshakeBaud a.handshakeBaud,
    .parityEven a.parityEven, .wait a.waitS] ++ (a.blocks.map .blocks).toList ++
    [.writeOptions a.writeOptions] ++ (if a.quiet then [.quiet] else []) ++
    [.drainMode a.drainMode, .drainMargin a.drainMarginMs] ++ a.words.map .word

/-- A command line that asks for it. -/
def render (a : Args) : List String := a.settings.flatMap Setting.spelling

end Args

/-- Words behind the command. -/
theorem foldl_words {a : Args} {c : String} (hc : a.command = some c) (ws : List String) :
    (ws.map .word).foldl Setting.apply a = { a with positional := a.positional ++ ws } := by
  induction ws generalizing a with
  | nil =>
      rw [List.append_nil]
      rfl
  | cons w ws ih =>
      have hw : Setting.apply a (.word w) = { a with positional := a.positional ++ [w] } := by
        simp only [Setting.apply, Args.addWord, hc]
      rw [List.map_cons, List.foldl_cons, hw]
      refine (ih (a := { a with positional := a.positional ++ [w] }) hc).trans ?_
      rw [List.append_assoc]
      rfl

/-- The settings say what they are to say. -/
theorem Args.of_settings {a : Args} (h : a.command = none → a.positional = []) :
    Args.of a.settings = a := by
  have hoptions : ∀ ws : List String,
      ((({ a with command := none, positional := [] } : Args).settings) ++
        ws.map Setting.word).foldl Setting.apply .default =
      (ws.map Setting.word).foldl Setting.apply { a with command := none, positional := [] } := by
    intro ws
    rw [List.foldl_append]
    congr 1
    obtain ⟨port, _, _, _, _, blocks, _, quiet, _, _, _, _⟩ := a
    cases port <;> cases blocks <;> cases quiet <;> rfl
  have hsplit : a.settings = ({ a with command := none, positional := [] } : Args).settings ++
      a.words.map Setting.word := by
    simp [settings, words]
  rw [← foldl_apply, hsplit, hoptions, words]
  obtain ⟨_, _, _, _, _, _, _, _, _, _, command, positional⟩ := a
  cases command with
  | none =>
      obtain rfl : positional = [] := h rfl
      rfl
  | some c => exact foldl_words rfl positional

/-- The words of settings are those of the settings that are words. -/
theorem mem_wordsOf {w : String} {ss : List Setting} : w ∈ wordsOf ss ↔ .word w ∈ ss := by
  rw [wordsOf, List.mem_filterMap]
  constructor
  · rintro ⟨s, hs, hw⟩
    cases s <;> cases hw
    exact hs
  · exact fun h => ⟨_, h, rfl⟩

/-- The command and the positional words together are all words of the settings, in order. -/
theorem Args.words_of (ss : List Setting) : (Args.of ss).words = wordsOf ss := by
  rw [words, Args.of]
  cases wordsOf ss <;> rfl

/-- **What `parse_args` can return, and that each of it can be asked for.** Its results are the
values where no word begins like an option, and no positional argument stands without a command;
and each of these is read from the command line that is written for it, with every number as it
was. -/
theorem parseArgs_range (a : Args) :
    ((∃ argv, parseArgs argv = .ok a) ↔ a.Sayable) ∧
      (a.Sayable → parseArgs a.render = .ok a) := by
  have hrender : a.Sayable → parseArgs a.render = .ok a := by
    rintro ⟨hwords, hcommand⟩
    have hsettings : ∀ s ∈ a.settings, s.Sayable := by
      intro s hs
      cases s with
      | word w =>
          have hw := mem_wordsOf.mpr hs
          rw [← Args.words_of, Args.of_settings hcommand] at hw
          exact hwords w hw
      | _ => trivial
    rw [Args.render, parseArgs_of_spelled (spelled_spelling hsettings),
      Args.of_settings hcommand]
  refine ⟨⟨?_, fun h => ⟨_, hrender h⟩⟩, hrender⟩
  rintro ⟨argv, hargv⟩
  obtain ⟨ss, pre, hpre, rfl | ⟨rest, e, rfl, he⟩⟩ := parseArgs_complete argv
  · rw [parseArgs_of_spelled hpre] at hargv
    obtain rfl := Except.ok.inj hargv
    refine ⟨fun w hw => ?_, fun hnone => ?_⟩
    · rw [Args.words_of] at hw
      exact sayable_of_spelled hpre _ (mem_wordsOf.mp hw)
    · rw [Args.of] at hnone ⊢
      rw [List.head?_eq_none_iff.mp hnone]
      rfl
  · rw [parseArgs_of_refused hpre he] at hargv
    cases hargv

end Stcbsl
