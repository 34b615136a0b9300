import ForthMachine.CommandLine.Invocation
import ForthMachine.Settings.Document

/-!
Sessions of the command. A session evaluates files one after the other and then listens to its input.
A trap in a file ends it; a trap while it listens is reported, and it goes on with the rest of the
input. Errors and trace text go to the same sink, in the order in which they arise.
-/

namespace ForthMachine.CommandLine

/-- How the command ends: its exit code, and what it says on the output for errors. -/
structure Verdict where
  code : UInt8
  errors : String := ""
  deriving DecidableEq, Repr

def Verdict.fatal (message : String) : Verdict := { code := 1, errors := message ++ "\n" }

inductive Stage where
  | evaluating (name : Octets)
  | listening
  | ended (code : UInt8)
  deriving DecidableEq, Repr

structure Session where
  machine : Machine
  image : Image
  encoding : Encoding
  stage : Stage
  /-- The names of the files still to be evaluated, and what comes of reading them. -/
  pending : List (Octets × File)
  input : List UInt8
  ending : Ending := .endOfInput

namespace Session

/-- The steps that the core words are given. They need less than half of them. -/
def installationFuel : Nat := 20000

def report (line : String) (m : Machine) : Machine :=
  let sink := m.console.trace.getD {}
  { m with console.trace := some (sink.write (line ++ "\n")).2 }

def abort (s : Session) (message : String) : Session :=
  { s with machine := report message s.machine, stage := .ended 1 }

def proceed (s : Session) : Session :=
  match s.pending with
  | [] =>
    { s with
      machine.console.input := some (s.encoding.source s.input s.ending)
      stage := .listening }
  | (name, .unopened reason) :: _ => s.abort (File.unopenedMessage name reason)
  | (name, .opened bytes ending) :: rest =>
    { s with
      machine := s.image.enter (s.encoding.source bytes ending) s.machine
      stage := .evaluating name
      pending := rest }

def start (settings : Settings) (trace : Bool) (files : List (Octets × File))
    (input : List UInt8) (ending : Ending) : Session :=
  let console : Console := { trace := some {}, tracing := settings.trace || trace }
  let (installed, machine) := Image.install installationFuel settings.base { console }
  let s (image : Image) (encoding : Encoding) : Session :=
    { machine, image, encoding, stage := .listening, pending := files, input, ending }
  match installed, Encoding.ofName? settings.encoding with
  | .ok image, some encoding => (s image encoding).proceed
  | .ok image, none => (s image .utf8).abort (Encoding.unknownMessage settings.encoding)
  -- without an image there is nothing to run, and the session is over before its first step
  | .error e, _ => (s { base := settings.base, quit := 0 } .utf8).abort e.message

def advance (fuel : Nat) (s : Session) : Session :=
  match s.stage with
  | .ended _ => s
  | .evaluating name =>
    match s.machine.run fuel with
    | (.cancelled, machine) => { s with machine }
    | (.finished, machine) => { s with machine }.proceed
    | (.trapped t, machine) => { s with machine }.abort (name.display ++ ": " ++ t.message)
  | .listening =>
    match s.machine.run fuel with
    | (.cancelled, machine) => { s with machine }
    | (.finished, machine) => { s with machine, stage := .ended 0 }
    -- the input stays: it goes on behind the word that trapped
    | (.trapped t, machine) =>
      { s with machine := (report t.message machine).reset s.image.quit }

/-- Advances a session up to `rounds` times, until it ends. -/
def run (fuel : Nat) : Nat → Session → Session
  | 0, s => s
  | rounds + 1, s =>
    match s.stage with
    | .ended _ => s
    | _ => run fuel rounds (s.advance fuel)

def drain (s : Session) : String × String × Session :=
  let console := s.machine.console
  let errors := (console.trace.getD {}).delivered
  (console.output.delivered, errors,
    { s with machine.console := { console with output := {}, trace := some {} } })

end Session

def Invocation.load {m : Type → Type} [Monad m] (read : Octets → m File) (i : Invocation) :
    ExceptT Verdict m Settings := do
  let name := Octets.ofString i.settings
  if name.isEmpty then pure {}
  else match Settings.ofFile name (← read name) with
    | .ok settings => pure settings
    | .error e => throw (.fatal e.message)

/-- Opens the session that the arguments ask for, on an input that may end in a failure. All its files
are read at once, which nothing that the session does can change. -/
def Session.ofDevices {m : Type → Type} [Monad m] (read : Octets → m File)
    (input : m (List UInt8 × Ending)) (arguments : List String) : ExceptT Verdict m Session := do
  match Invocation.parse arguments with
  | .error refusal => throw { code := refusal.code, errors := refusal.message }
  | .ok i =>
    let settings ← i.load read
    let names := settings.startup ++ i.files.map Octets.ofString
    let files ← names.mapM fun name => do pure (name, ← read name)
    let (bytes, ending) ← input
    pure (Session.start settings i.trace files bytes ending)

def Session.ofArguments {m : Type → Type} [Monad m] (read : Octets → m File)
    (input : m (List UInt8)) (arguments : List String) : ExceptT Verdict m Session :=
  Session.ofDevices read (do pure (← input, .endOfInput)) arguments

end ForthMachine.CommandLine
