import Mathlib.Data.List.Infix
import Stcbsl.Arguments
import Stcbsl.Calls
import Stcbsl.Explain
import Stcbsl.HexImage
import Stcbsl.Messages

/-!
# The Commands

The program `stcbsl` as a whole: its command line, the image it loads, and the session that
handshakes, plans and runs. The files and the serial ports of the machine are given (`Machine`);
a port that opens is a `World`.

## Three levels

`session` is what runs on an open port. `main` is `run` of the source: it reads the command
line, opens the port where the command needs one, and ends with what is printed or with an
`Exit`. `exitCode` is `fn main` of the source around it: the exit code, with what stands on the
standard error where the code is that of a failure. The usage ends the program before a
command is done, and so do a message, a panic of the source and the end of the fuel.

The texts of errors are those of the source. `debugStr` and `debugChar`, the formats of the
standard library for strings and characters, are parameters, since which characters they escape
is a table of their own.

## What is printed

A command that succeeds has its lines for a result: those of `ports` and `explain`, and the
last line of a session. What the log of the command line prints while a session runs, and the
total of discarded bytes that it keeps, is told by `CliLog` from the events of the log. The
report about the target is left out: it reads what `parse_status` found and changes nothing.

## Main results

* `session_divides` — a session is a handshake, and a run of what is planned for the target.
* `contract_session` — the same in contracts.
* `main_cases` — what the program does: nothing on any port, or one session.
-/

namespace Stcbsl

open Traced Driver Stc89

/-! ### Failures -/

/-- `fmt::Display for HexError`; `debugStr` and `debugChar` are the `{:?}` format of a string and
of a character. -/
def IntelHex.HexError.display (debugStr : List Char → String) (debugChar : UInt8 → String) :
    IntelHex.HexError → String
  | empty => "file is empty"
  | noData => "file contains no data records"
  | badRecord line why => "line " ++ toString line ++ ": " ++ why.text debugStr debugChar
  | badChecksum line computed got =>
      "line " ++ toString line ++ ": record checksum is 0x" ++ hex02 got ++ ", computed 0x"
        ++ hex02 computed
  | addressTooHigh line addr =>
      "line " ++ toString line ++ ": address 0x"
        ++ String.ofList (List.leftpad 8 '0' (Nat.toDigits 16 addr.toNat))
        ++ " is above 64 KB — unsupported, the protocol's behaviour there is untested "
        ++ "(spec item C-4)"

/-- What a command that fails complains of. -/
inductive Failure
  | arguments (r : Refusal)
  | noCommand
  | unknownCommand (cmd : String)
  | noFile (cmd : String)
  | file (path message : String)
  | image (path : String) (e : IntelHex.HexError)
  | noPort
  | noOpen (port message : String)
  | protocol (e : ProtocolError)
  | driver (e : Driver.Error)
  deriving DecidableEq, Repr

/-- The message behind `stcbsl: `. -/
def Failure.message (debugStr : List Char → String) (debugChar : UInt8 → String) :
    Failure → String
  | .arguments .help => ""
  | .arguments (.needsValue what) => what ++ " needs a value"
  | .arguments (.invalid text) => text
  | .arguments (.unexpected text got) => text ++ debugStr got.toList
  | .noCommand => "no command; try --help"
  | .unknownCommand cmd => "unknown command " ++ debugStr cmd.toList ++ "; try --help"
  | .noFile cmd => "`" ++ cmd ++ "` needs a .hex file"
  | .file path message => path ++ ": " ++ message
  | .image path e => path ++ ": " ++ e.display debugStr debugChar
  | .noPort => "--port is required (try `stcbsl ports`)"
  | .noOpen port message => port ++ ": " ++ message
  | .protocol e => e.display
  | .driver e => e.display

/-- How the program ends without a command done: the usage is printed, where nothing else is
asked for, or it ends with a message, with `unreachable!` or another panic, or for want of
fuel. -/
inductive Exit
  | help
  | failure (f : Failure)
  | panic
  | unreachable
  | outOfFuel
  deriving DecidableEq, Repr

/-- `.map_err(|e| e.to_string())`, for an error of the driver. -/
def Exit.ofHalt : Halt → Exit
  | .error e => .failure (.driver e)
  | .unreachable => .unreachable
  | .outOfFuel => .outOfFuel

/-! ### The machine -/

/-- The files and the serial ports of the machine: the text of a file, or an error; a port opened
at a rate, with even parity or none, or an error; the names of the ports. -/
structure Machine where
  readToString : String → Except String (List Char)
  openPort : String → UInt32 → Bool → Except String World
  ports : List String

/-- The lines `load_image` prints about an image. -/
def imageNotes (path : String) (img : IntelHex.Image) : List String :=
  ["image: " ++ path ++ " — " ++ toString img.bytes.length ++ " bytes"]
    ++ (if img.lowestAddr ≠ 0 then
      ["  note: lowest address is 0x" ++ hex04 img.lowestAddr.toNat
        ++ ", not 0 — the 8051 starts at 0x0000"]
      else [])
    ++ (if img.gapBytes > 0 then
      ["  note: " ++ toString img.gapBytes ++ " bytes are gaps in the hex, filled with 0x00"]
      else [])

/-- `load_image`, with the lines it prints. -/
def loadImage (m : Machine) (path : String) (quiet : Bool) :
    Except Exit (Bytes × List String) :=
  match m.readToString path with
  | .error message => .error (.failure (.file path message))
  | .ok text =>
      match IntelHex.parse text with
      | .error (.error e) => .error (.failure (.image path e))
      | .error .panic => .error .panic
      | .ok img => .ok (img.bytes, if quiet then [] else imageNotes path img)

/-! ### The log of the command line -/

/-- `CliLog`. -/
structure CliLog where
  quiet : Bool
  noise : ℕ
  deriving DecidableEq, Repr

/-- `impl Log for CliLog`: what is printed, and the log behind it. -/
def CliLog.line (l : CliLog) : LogLine → List String × CliLog
  | .step label bytes =>
      if l.quiet then ([], l)
      else if bytes.length > 24 then
        (["-> " ++ label ++ "\n   " ++ hex (bytes.take 16) ++ " … (" ++ toString bytes.length
          ++ " bytes)"], l)
      else (["-> " ++ label ++ "\n   " ++ hex bytes], l)
  | .reply frame =>
      if l.quiet then ([], l)
      else (["<- cmd 0x" ++ hex02 frame.cmd ++ ", " ++ toString frame.payload.length
        ++ " payload bytes"], l)
  | .note msg => (if l.quiet then [] else ["   " ++ msg], l)
  | .discarded bytes =>
      let l := { l with noise := l.noise + bytes.length }
      if l.quiet then ([], l)
      else (["   discarded " ++ toString bytes.length ++ " non-protocol byte(s) ["
        ++ toString l.noise ++ " total] — normal if the chip is still running an app that prints"],
        l)

/-- The log behind the events of a run. -/
def CliLog.behind (l : CliLog) (h : List Event) : CliLog :=
  h.foldl (fun l e => match e with | .log line => (l.line line).2 | _ => l) l

/-! ### Sessions -/

/-- `opts` of `cmd_session`. -/
def Args.sessionOptions (args : Args) : SessionOptions :=
  { SessionOptions.default with
    handshakeBaud := args.handshakeBaud, transferBaud := args.transferBaud }

/-- `drain` of `cmd_session`. -/
def Args.drainConfig (args : Args) : DrainConfig :=
  { mode := args.drainMode, marginMs := args.drainMarginMs }

/-- `Duration::from_secs`, in nanoseconds. -/
def Args.wait (args : Args) : ℕ := args.waitS.toNat * 1000000000

/-- What is run on an open port: handshake, plan, run. -/
def session (w : World) (opts : SessionOptions) (wait : ℕ) (drain : DrainConfig) (job : Job)
    (fuel : ℕ) : Prog Exit Event Unit := do
  let info ← (handshake w family opts wait fuel).mapError Exit.ofHalt
  match plan info job opts with
  | .error e => Prog.fail (.failure (.protocol e))
  | .ok steps => do
      let _ ← (run w drain fuel (Session.new steps) .new).mapError Exit.ofHalt
      pure ()

/-- The last line `cmd_session` prints. -/
def doneLine : Job → String
  | .identify => "done — chip released to its application"
  | .erase _ => "done — code flash erased"
  | .flash _ _ =>
      "done — image programmed and the chip released to it.\n"
        ++ "There is no read-back on this part, so 'programmed' means every block's\n"
        ++ "checksum was acknowledged by the MCU, not that the flash was read back."

/-- `cmd_session`, with the events on the port. -/
def cmdSession (m : Machine) (args : Args) (job : Job) (fuel : ℕ) :
    Except Exit (List String) × List Event :=
  match args.port with
  | none => (.error (.failure .noPort), [])
  | some port =>
      match m.openPort port args.sessionOptions.handshakeBaud args.parityEven with
      | .error message => (.error (.failure (.noOpen port message)), [])
      | .ok w =>
          let out := session w args.sessionOptions args.wait args.drainConfig job fuel []
          (out.1.map fun _ => [doneLine job], out.2)

/-- `cmd_ports`: what is printed. -/
def cmdPorts (m : Machine) : List String :=
  (if m.ports.isEmpty then ["no serial ports found"] else []) ++
    m.ports.map fun p =>
      p ++ if "/dev/tty.".toList <:+: p.toList then "   (prefer the /dev/cu.* twin)" else ""

/-- The command line, once it is parsed, with the events on the port that is opened, if any. -/
def dispatch (m : Machine) (args : Args) (fuel : ℕ) :
    String → Except Exit (List String) × List Event
  | "ports" => (.ok (cmdPorts m), [])
  | "explain" =>
      match args.positional with
      | [] => (.error (.failure (.noFile "explain")), [])
      | path :: _ =>
          match loadImage m path args.quiet with
          | .error e => (.error e, [])
          | .ok (image, notes) => (.ok (notes ++ (cmdExplain image).map ExplainLine.text), [])
  | "identify" | "info" => cmdSession m args .identify fuel
  | "erase" => cmdSession m args (.erase args.blocks) fuel
  | "write" | "flash" =>
      match args.positional with
      | [] => (.error (.failure (.noFile "write")), [])
      | path :: _ =>
          match loadImage m path args.quiet with
          | .error e => (.error e, [])
          | .ok (image, _) => cmdSession m args (.flash image args.writeOptions) fuel
  | other => (.error (.failure (.unknownCommand other)), [])

/-- `run`: a command line. -/
def main (m : Machine) (argv : List String) (fuel : ℕ) :
    Except Exit (List String) × List Event :=
  if argv.isEmpty then (.error .help, [])
  else
    match parseArgs argv with
    | .error .help => (.error .help, [])
    | .error r => (.error (.failure (.arguments r)), [])
    | .ok args =>
        match args.command with
        | none => (.error (.failure .noCommand), [])
        | some cmd => dispatch m args fuel cmd

/-- `ExitCode`, with what stands on the standard error where it is that of failure. -/
inductive ExitCode
  | success
  | failure (stderr : String)
  deriving DecidableEq, Repr

/-- `fn main`, behind `run`. A panic leaves no exit code of the program's own, and the end of the
fuel none at all. -/
def exitCode (debugStr : List Char → String) (debugChar : UInt8 → String) :
    Except Exit (List String) → Option ExitCode
  | .ok _ | .error .help => some .success
  | .error (.failure f) => some (.failure ("stcbsl: " ++ f.message debugStr debugChar))
  | .error .panic | .error .unreachable | .error .outOfFuel => none

/-! ### What the program does on a port -/

/-- **A session is a handshake, and a run of what is planned for the target.** The run is one
against the world as the handshake leaves it. -/
theorem session_divides (w : World) (opts : SessionOptions) (wait : ℕ) (drain : DrainConfig)
    (job : Job) (fuel : ℕ) :
    (∃ halt t₁, handshake w family opts wait fuel [] = (.error halt, t₁) ∧
      session w opts wait drain job fuel [] = (.error (.ofHalt halt), t₁)) ∨
    (∃ info t₁ e, handshake w family opts wait fuel [] = (.ok info, t₁) ∧
      plan info job opts = .error e ∧
      session w opts wait drain job fuel [] = (.error (.failure (.protocol e)), t₁)) ∨
    ∃ info t₁ steps r t₂, handshake w family opts wait fuel [] = (.ok info, t₁) ∧
      plan info job opts = .ok steps ∧ runFresh (w.after t₁) drain fuel steps = (r, t₂) ∧
      session w opts wait drain job fuel [] =
        ((r.mapError Exit.ofHalt).map fun _ => (), t₁ ++ t₂) := by
  rcases hhand : handshake w family opts wait fuel [] with ⟨halt | info, t₁⟩
  · have hmap : (handshake w family opts wait fuel).mapError Exit.ofHalt [] =
        (.error (.ofHalt halt), t₁) := by
      rw [Prog.mapError, hhand]
      rfl
    exact .inl ⟨halt, t₁, rfl, Prog.bind_of_error hmap⟩
  have hmap : (handshake w family opts wait fuel).mapError Exit.ofHalt [] = (.ok info, t₁) := by
    rw [Prog.mapError, hhand]
    rfl
  cases hplan : plan info job opts with
  | error e =>
      refine .inr (.inl ⟨info, t₁, e, rfl, hplan, ?_⟩)
      rw [session, Prog.bind_of_ok hmap rfl]
      simp only [hplan]
      exact Prod.ext rfl (List.append_nil t₁)
  | ok steps =>
      rcases hrun : runFresh (w.after t₁) drain fuel steps with ⟨r, t₂⟩
      refine .inr (.inr ⟨info, t₁, steps, r, t₂, rfl, hplan, hrun, ?_⟩)
      have hbehind : run w drain fuel (Session.new steps) .new ([] ++ t₁) = (r, t₂) := by
        have hafter := congrFun (after_run w t₁ drain fuel (Session.new steps) .new) []
        rw [Prog.after, List.append_nil] at hafter
        exact hafter.trans hrun
      have hmap₂ : (run w drain fuel (Session.new steps) .new).mapError Exit.ofHalt
          ([] ++ t₁) = (r.mapError Exit.ofHalt, t₂) := by
        rw [Prog.mapError, hbehind]
      rw [session]
      refine Prog.bind_of_ok hmap ?_
      simp only [hplan]
      cases r with
      | error halt => exact Prog.bind_of_error hmap₂
      | ok s => exact (Prog.bind_of_ok hmap₂ rfl).trans (Prod.ext rfl (List.append_nil t₂))

/-- A session in contracts: that of the handshake, and of the runs that may follow. -/
theorem contract_session {w : World} {opts : SessionOptions} {wait : ℕ} {drain : DrainConfig}
    {job : Job} {fuel : ℕ} {P Q : List Event → Prop} {R : TargetInfo → List Event → Prop}
    {E : Halt → List Event → Prop} {E' : Exit → List Event → Prop}
    (hhand : Contract P (handshake w family opts wait fuel) R E)
    (hplan : ∀ info h e, R info h → plan info job opts = .error e →
      E' (.failure (.protocol e)) h)
    (hrun : ∀ info steps, plan info job opts = .ok steps →
      Contract (R info) (run w drain fuel (Session.new steps) .new) (fun _ => Q) E)
    (hhalt : ∀ halt h, E halt h → E' (.ofHalt halt) h) :
    Contract P (session w opts wait drain job fuel) (fun _ => Q) E' := by
  refine (hhand.mapError fun e h => hhalt e h).bind fun info => ?_
  cases hsteps : plan info job opts with
  | error e => exact contract_fail fun h hr => hplan info h e hr hsteps
  | ok steps =>
      exact ((hrun info steps hsteps).mapError fun e h => hhalt e h).bind fun _ =>
        contract_pure fun h hq => hq

/-- The jobs a command line asks for. -/
inductive JobOf (m : Machine) (args : Args) : Job → Prop
  | identify (h : args.command = some "identify" ∨ args.command = some "info") :
      JobOf m args .identify
  | erase (h : args.command = some "erase") : JobOf m args (.erase args.blocks)
  | flash (h : args.command = some "write" ∨ args.command = some "flash") {path : String}
      {rest : List String} (hpath : args.positional = path :: rest) {text : List Char}
      (hread : m.readToString path = .ok text) {img : IntelHex.Image}
      (hparse : IntelHex.parse text = .ok img) : JobOf m args (.flash img.bytes args.writeOptions)

/-- An end that comes before a port is open. -/
def Exit.Early : Exit → Prop
  | .help => True
  | .failure (.protocol _) | .failure (.driver _) => False
  | .failure _ => True
  | .panic | .unreachable | .outOfFuel => False

/-- A session command fails without an event, or runs one session on the port it names. -/
theorem cmdSession_cases (m : Machine) (args : Args) (job : Job) (fuel : ℕ) :
    (∃ e : Exit, e.Early ∧ cmdSession m args job fuel = (.error e, [])) ∨
      ∃ port w, args.port = some port ∧
        m.openPort port args.handshakeBaud args.parityEven = .ok w ∧
        cmdSession m args job fuel =
          ((session w args.sessionOptions args.wait args.drainConfig job fuel []).1.map
            fun _ => [doneLine job],
          (session w args.sessionOptions args.wait args.drainConfig job fuel []).2) := by
  rw [cmdSession]
  cases args.port with
  | none => exact .inl ⟨.failure .noPort, trivial, rfl⟩
  | some port =>
      dsimp only
      cases hopen : m.openPort port args.sessionOptions.handshakeBaud args.parityEven with
      | error message => exact .inl ⟨.failure (.noOpen port message), trivial, rfl⟩
      | ok w => exact .inr ⟨port, w, rfl, hopen, rfl⟩

/-- **What comes of a file**: a complaint, or its image and the notes about it. -/
theorem loadImage_cases (m : Machine) (path : String) :
    (∃ e : Exit, e.Early ∧ ∀ quiet, loadImage m path quiet = .error e) ∨
      ∃ text img, m.readToString path = .ok text ∧ IntelHex.parse text = .ok img ∧
        ∀ quiet, loadImage m path quiet =
          .ok (img.bytes, if quiet then [] else imageNotes path img) := by
  cases hread : m.readToString path with
  | error message =>
      refine .inl ⟨.failure (.file path message), trivial, fun quiet => ?_⟩
      rw [loadImage, hread]
  | ok text =>
      obtain ⟨rs, -, -, ⟨-, st, -, hparse⟩ | ⟨-, e, hparse, -⟩⟩ | ⟨k, e, -, hparse, -⟩ :=
        IntelHex.parse_cases text
      · refine .inr ⟨text, _, rfl, hparse, fun quiet => ?_⟩
        rw [loadImage, hread]
        simp only [hparse]
      all_goals
        refine .inl ⟨.failure (.image path e), trivial, fun quiet => ?_⟩
        rw [loadImage, hread]
        simp only [hparse]

/-- What is done with a file that is to be programmed. -/
theorem dispatch_of_path {m : Machine} {args : Args} {fuel : ℕ} {cmd path : String}
    {rest : List String} (hcmd : cmd = "write" ∨ cmd = "flash")
    (hpath : args.positional = path :: rest) :
    dispatch m args fuel cmd =
      match loadImage m path args.quiet with
      | .error e => (.error e, [])
      | .ok (image, _) => cmdSession m args (.flash image args.writeOptions) fuel := by
  obtain rfl | rfl := hcmd <;> simp only [dispatch, hpath]

/-- The two names of the command that programs an image. -/
theorem dispatch_write (m : Machine) (args : Args) (fuel : ℕ) {cmd : String}
    (hcmd : cmd = "write" ∨ cmd = "flash") (hargs : args.command = some cmd) :
    (∃ e : Exit, e.Early ∧ dispatch m args fuel cmd = (.error e, [])) ∨
      ∃ job, JobOf m args job ∧ dispatch m args fuel cmd = cmdSession m args job fuel := by
  rcases hpath : args.positional with _ | ⟨path, rest⟩
  · refine .inl ⟨.failure (.noFile "write"), trivial, ?_⟩
    rcases hcmd with rfl | rfl <;> simp only [dispatch, hpath]
  have hdispatch : dispatch m args fuel cmd = _ := dispatch_of_path hcmd hpath
  obtain ⟨e, hearly, hfile⟩ | ⟨text, img, hread, hparse, hfile⟩ := loadImage_cases m path
  all_goals rw [hfile] at hdispatch
  · exact .inl ⟨e, hearly, hdispatch⟩
  · have hnames : args.command = some "write" ∨ args.command = some "flash" := by
      rw [hargs]
      exact hcmd.imp (congrArg some) (congrArg some)
    exact .inr ⟨_, .flash hnames hpath hread hparse, hdispatch⟩

/-- **What the program does for a command**: it prints something, it fails without an event, or
it runs a session. -/
theorem dispatch_cases (m : Machine) (args : Args) (fuel : ℕ) {cmd : String}
    (hcmd : args.command = some cmd) :
    ((cmd = "ports" ∨ cmd = "explain") ∧ (dispatch m args fuel cmd).2 = [] ∧
      ∀ e, (dispatch m args fuel cmd).1 = .error e → e.Early) ∨
    (∃ e : Exit, e.Early ∧ dispatch m args fuel cmd = (.error e, [])) ∨
      ∃ job, JobOf m args job ∧ dispatch m args fuel cmd = cmdSession m args job fuel := by
  by_cases hwrite : cmd = "write" ∨ cmd = "flash"
  · exact .inr (dispatch_write m args fuel hwrite hcmd)
  rw [dispatch.eq_def]
  split
  · exact .inl ⟨.inl rfl, rfl, fun _ hbad => by cases hbad⟩
  · refine .inl ⟨.inr rfl, ?_⟩
    rcases args.positional with _ | ⟨path, rest⟩
    · refine ⟨rfl, fun e he => ?_⟩
      cases he
      trivial
    · dsimp only
      obtain ⟨e, hearly, hfile⟩ | ⟨text, img, -, -, hfile⟩ := loadImage_cases m path
      all_goals rw [hfile]
      · refine ⟨rfl, fun e' he => ?_⟩
        cases he
        exact hearly
      · exact ⟨rfl, fun _ hbad => by cases hbad⟩
  · exact .inr (.inr ⟨.identify, .identify (.inl hcmd), rfl⟩)
  · exact .inr (.inr ⟨.identify, .identify (.inr hcmd), rfl⟩)
  · exact .inr (.inr ⟨_, .erase hcmd, rfl⟩)
  · exact absurd (.inl rfl) hwrite
  · exact absurd (.inr rfl) hwrite
  · exact .inr (.inl ⟨.failure (.unknownCommand cmd), trivial, rfl⟩)

/-- A command line that is understood is passed on. -/
theorem main_of_command {m : Machine} {argv : List String} {args : Args} {cmd : String}
    (fuel : ℕ) (hargs : parseArgs argv = .ok args) (hcmd : args.command = some cmd) :
    main m argv fuel = dispatch m args fuel cmd := by
  have hne : ¬ argv.isEmpty = true := by
    intro hempty
    rw [List.isEmpty_iff.mp hempty] at hargs
    cases hargs
    cases hcmd
  rw [main, if_neg hne, hargs]
  simp only [hcmd]

/-- The program ends early, or reads a command. -/
theorem main_reads (m : Machine) (argv : List String) (fuel : ℕ) :
    (∃ e : Exit, e.Early ∧ main m argv fuel = (.error e, [])) ∨
      ∃ args cmd, parseArgs argv = .ok args ∧ args.command = some cmd := by
  by_cases hempty : argv.isEmpty = true
  · exact .inl ⟨.help, trivial, by rw [main, if_pos hempty]⟩
  cases hargs : parseArgs argv with
  | error r =>
      cases r with
      | help => exact .inl ⟨.help, trivial, by rw [main, if_neg hempty, hargs]⟩
      | _ => exact .inl ⟨.failure (.arguments _), trivial, by rw [main, if_neg hempty, hargs]⟩
  | ok args =>
      cases hcmd : args.command with
      | none =>
          refine .inl ⟨.failure .noCommand, trivial, ?_⟩
          rw [main, if_neg hempty, hargs]
          simp only [hcmd]
      | some cmd => exact .inr ⟨args, cmd, rfl, hcmd⟩

/-- **What the program does on a port**: nothing at all, or one session for the job that its
command line asks for. Without a session it succeeds with `ports` and `explain` only. -/
theorem main_cases (m : Machine) (argv : List String) (fuel : ℕ) :
    ((main m argv fuel).2 = [] ∧ (∀ e, (main m argv fuel).1 = .error e → e.Early) ∧
      ∀ out, (main m argv fuel).1 = .ok out → ∃ args, parseArgs argv = .ok args ∧
        (args.command = some "ports" ∨ args.command = some "explain")) ∨
      ∃ args job port w, parseArgs argv = .ok args ∧ JobOf m args job ∧
        args.port = some port ∧ m.openPort port args.handshakeBaud args.parityEven = .ok w ∧
        main m argv fuel =
          ((session w args.sessionOptions args.wait args.drainConfig job fuel []).1.map
            fun _ => [doneLine job],
          (session w args.sessionOptions args.wait args.drainConfig job fuel []).2) := by
  have hfails : ∀ e : Exit, e.Early → main m argv fuel = (.error e, []) →
      (main m argv fuel).2 = [] ∧ (∀ e, (main m argv fuel).1 = .error e → e.Early) ∧
        ∀ out, (main m argv fuel).1 = .ok out → ∃ args, parseArgs argv = .ok args ∧
          (args.command = some "ports" ∨ args.command = some "explain") := by
    intro e hearly he
    rw [he]
    refine ⟨rfl, fun e' he' => ?_, fun _ hout => by cases hout⟩
    cases he'
    exact hearly
  obtain ⟨e, hearly, he⟩ | ⟨args, cmd, hargs, hcmd⟩ := main_reads m argv fuel
  · exact .inl (hfails e hearly he)
  have hmain := main_of_command (m := m) fuel hargs hcmd
  obtain ⟨hprints, hnil, hearly⟩ | ⟨e, hearly, he⟩ | ⟨job, hjob, hdispatch⟩ :=
    dispatch_cases m args fuel hcmd
  · refine .inl ⟨by rw [hmain, hnil], by rwa [hmain], fun _ _ => ⟨args, hargs, ?_⟩⟩
    rw [hcmd]
    exact hprints.imp (congrArg some) (congrArg some)
  · exact .inl (hfails e hearly (hmain.trans he))
  obtain ⟨e, hearly, he⟩ | ⟨port, w, hport, hopen, hrun⟩ := cmdSession_cases m args job fuel
  · exact .inl (hfails e hearly (hmain.trans (hdispatch.trans he)))
  · exact .inr ⟨args, job, port, w, hargs, hjob, hport, hopen,
      hmain.trans (hdispatch.trans hrun)⟩

end Stcbsl
