import Mykt.Command.Arguments
import Mykt.Path
import Mykt.Settings

/-!
The command line of the program: settings before the command, and what the command needs after it.
-/

namespace Mykt.Command

/-- How a server is reached. What is none was left blank. -/
inductive Transport where
  | streams
  | socket (host : Option String) (port : Option Int)
  deriving DecidableEq, Repr

/-- What is to be done. A line or a character that is none was left blank. -/
inductive Task where
  | serve (t : Transport)
  | definition (file : Path) (line character : Option Int)
  | symbols (file : Path)
  deriving DecidableEq, Repr

/-- The file that a task is about. -/
def Task.file? : Task → Option Path
  | serve _ => none
  | definition file _ _ => some file
  | symbols file => some file

/-- The settings that are asked for. An extension that was left blank names no file. -/
structure Choices where
  extension : Option String
  followTransitiveImports : Bool
  logLevel : String
  deriving DecidableEq, Repr

/-- The settings of an analysis, which looks at the extension only for an import. -/
def Choices.settings (c : Choices) : Settings where
  fileExtension := c.extension.getD ""
  followTransitiveImports := c.followTransitiveImports
  logLevel := c.logLevel

structure Invocation where
  choices : Choices
  task : Task
  deriving DecidableEq, Repr

def programName : String := "myktls"

def versionText : String := programName ++ " 0.1.0\n"

def logLevelFlag : Flag := ⟨["--log-level"], .text⟩

def extensionFlag : Flag := ⟨["--extension"], .text⟩

def directFlag : Flag := ⟨["--no-transitive-imports"], .none⟩

def mainGrammar : Grammar where
  program := programName
  flags := [Grammar.helpFlag, Grammar.versionFlag, logLevelFlag, ⟨["--log-file"], .text⟩,
    extensionFlag, directFlag]
  positionals := []
  handsOver := true

def serveGrammar : Grammar where
  program := programName ++ " serve"
  flags := [Grammar.helpFlag, ⟨["--tcp"], .none⟩, ⟨["--host"], .text⟩, ⟨["--port"], .integer⟩]
  positionals := []
  handsOver := false

def definitionGrammar : Grammar where
  program := programName ++ " definition"
  flags := [Grammar.helpFlag]
  positionals := [("file", .text), ("line", .integer), ("character", .integer)]
  handsOver := false

def symbolsGrammar : Grammar where
  program := programName ++ " symbols"
  flags := [Grammar.helpFlag]
  positionals := [("file", .text)]
  handsOver := false

def commandNames : List String := ["serve", "definition", "symbols"]

def choicesOf (r : Reading) : Except Stop Choices :=
  let s : Settings := {}
  match (r.text? "--log-level").getD (some s.logLevel) with
  | none => .error .noLevel
  | some level => .ok {
      extension := (r.text? "--extension").getD (some s.fileExtension)
      followTransitiveImports := !r.isSet "--no-transitive-imports"
      logLevel := Text.lower level }

/-- A file comes first, so it is never blank. -/
def fileOf (r : Reading) : Path := .ofString ((r.text? "file").join.getD "")

def transportOf (r : Reading) : Transport :=
  if r.isSet "--tcp" then
    .socket ((r.text? "--host").getD (some "127.0.0.1")) ((r.integer? "--port").getD (some 2087))
  else .streams

/-- The task of a command, and the arguments that it leaves. -/
def taskOf (command : String) (arguments : List String) :
    Except Stop (Task × List String) := do
  match command with
  | "serve" =>
    let r ← serveGrammar.parse arguments
    return (.serve (transportOf r), r.extras)
  | "definition" =>
    let r ← definitionGrammar.parse arguments
    return (.definition (fileOf r) (r.integer? "line").join (r.integer? "character").join, r.extras)
  | "symbols" =>
    let r ← symbolsGrammar.parse arguments
    return (.symbols (fileOf r), r.extras)
  | other => .error (.usage programName (.unknownCommand other commandNames))

/-- Without a command the program serves over its own streams. The log level is looked at last. -/
def Invocation.ofArguments (arguments : List String) : Except Stop Invocation := do
  let r ← mainGrammar.parse arguments
  let (task, left) ← match r.command with
    | some (command :: rest) => taskOf command rest
    | _ => .ok (.serve .streams, [])
  match r.extras ++ left with
  | [] =>
    let choices ← choicesOf r
    return ⟨choices, task⟩
  | extras => .error (.usage programName (.unrecognized extras))

end Mykt.Command
