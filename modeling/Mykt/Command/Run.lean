import Mykt.Analysis
import Mykt.Command.Invocation
import Mykt.Failure
import Mykt.Link
import Mykt.Scope.Dump

/-!
Running a command: results go to the output, diagnostics to the error output, and the status tells
whether something was found.
-/

namespace Mykt.Command

/-- How a run ends. -/
inductive Ending where
  | status (n : Nat)
  /-- The arguments alone decide, with a status. -/
  | arguments (n : Nat)
  | failed (f : Failure)
  deriving DecidableEq, Repr

structure Outcome where
  ending : Ending
  output : String := ""
  errors : String := ""
  /-- The server that would be started, with its settings. -/
  started : Option (Transport × Choices) := none
  logLevel : Nat
  events : List Event := []
  deriving DecidableEq, Repr

/-- The text shown for arguments that are not understood. -/
def usageText (program : String) (e : ArgumentError) : String :=
  program ++ ": error: " ++ e.message ++ "\n"

def stopped (logLevel : Nat) : Stop → Outcome
  | .version => { ending := .arguments 0, output := versionText, logLevel }
  | .help => { ending := .arguments 0, logLevel }
  | .usage program e => { ending := .arguments 2, errors := usageText program e, logLevel }
  | .noLevel => { ending := .failed (.blank .logLevel), logLevel }

/-- The absolute path of an existing file. -/
def realPath (d : Disk) (file : Path) : Path := ⟨1, (Path.normalize d.cwd file).names⟩

def diagnosticsText (a : Analysis) : String :=
  String.join (a.diagnostics.map (·.format ++ "\n"))

/-- The position that is asked for. The line is looked at first. -/
def positionOf : Option Int → Option Int → Except Failure Position
  | none, _ => .error (.blank .line)
  | some line, none =>
    if Position.inBounds line then .error (.blank .character) else .error (.position (.line line))
  | some line, some character => (Position.ofInts line character).mapError .position

/-- What is printed of an analysis, and the status. -/
def answer (a : Analysis) : Task → Except Failure (Nat × String)
  | .symbols _ => .ok (0, a.table.dump.toText ++ "\n")
  | .definition _ line character => do
    let p ← positionOf line character
    match ← (a.definitionAt p).mapError .range with
    | some d => return (0, d.link.toJson.toText ++ "\n")
    | none => return (1, "")
  | .serve _ => .ok (0, "")

def hasImports (source : String) : Bool :=
  match parse source with
  | .ok t => !t.importHeaders.isEmpty
  | .error _ => false

/-- Runs a task on the text of a file. Without an extension no import can be looked for. -/
def runText (d : Disk) (choices : Choices) (logLevel : Nat) (task : Task) (file : Path)
    (source : String) : Outcome :=
  if choices.extension.isNone && hasImports source then
    { ending := .failed (.blank .extension), logLevel }
  else
    match Analysis.run d choices.settings (Uri.ofPath (realPath d file)) source with
    | (events, .error e) =>
      { ending := .failed (.ofImport e), logLevel, events := Event.heard logLevel events }
    | (events, .ok a) =>
      let events := Event.heard logLevel events
      let errors := diagnosticsText a
      if a.tree.isNone then { ending := .status 2, errors, logLevel, events }
      else
        match answer a task with
        | .error f => { ending := .failed f, errors, logLevel, events }
        | .ok (n, output) => { ending := .status n, output, errors, logLevel, events }

def runFile (d : Disk) (choices : Choices) (logLevel : Nat) (task : Task) (file : Path) :
    Outcome :=
  match d.isFile? file with
  | .error e => { ending := .failed (.disk e), logLevel }
  | .ok false => { ending := .status 2, errors := toString file ++ ": no such file\n", logLevel }
  | .ok true =>
    match d.readText file with
    | .error e => { ending := .failed (.disk e), logLevel }
    | .ok source => runText d choices logLevel task file source

def run (d : Disk) (logLevel : Nat) (arguments : List String) : Outcome :=
  match Invocation.ofArguments arguments with
  | .error stop => stopped logLevel stop
  | .ok ⟨choices, task⟩ =>
    let logLevel := applyLogLevel choices.logLevel logLevel
    match task with
    | .serve t => { ending := .status 0, started := some (t, choices), logLevel }
    | .definition file _ _ => runFile d choices logLevel task file
    | .symbols file => runFile d choices logLevel task file

end Mykt.Command
