import Mykt.Json
import Mykt.Text.Case

/-!
Settings of an analysis. A client's options are laid over them; options that are not understood
change nothing.
-/

namespace Mykt

/-- The number of a log level, its name written in any case. -/
def logLevel? (name : String) : Option Nat :=
  [("CRITICAL", 50), ("FATAL", 50), ("ERROR", 40), ("WARNING", 30), ("WARN", 30), ("INFO", 20),
    ("DEBUG", 10), ("NOTSET", 0)].lookup (String.ofList (name.toList.map Text.upperAscii))

/-- The level heard after a level was asked for by name. -/
def applyLogLevel (name : String) (current : Nat) : Nat := (logLevel? name).getD current

def defaultLogLevel : Nat := 30

def defaultExtension : String := ".mykt"

structure Settings where
  fileExtension : String := defaultExtension
  followTransitiveImports : Bool := true
  logLevel : String := "warning"
  deriving DecidableEq, Repr

namespace Settings

/-- An extension begins with a dot; one is put before it if need be. -/
def dotted (extension : String) : String :=
  if extension.toList.head? = some '.' then extension else "." ++ extension

def extensionOption? (options : Json) : Option String :=
  match options.get? "fileExtension" with
  | some (.string s) => if s = "" then none else some (dotted s)
  | _ => none

def followOption? (options : Json) : Option Bool :=
  match options.get? "followTransitiveImports" with
  | some (.bool b) => some b
  | _ => none

def logLevelOption? (options : Json) : Option String :=
  match options.get? "logLevel" with
  | some (.string s) => if (logLevel? s).isSome then some (Text.lower s) else none
  | _ => none

/-- Whether any of the options is understood. -/
def understands (options : Json) : Bool :=
  (extensionOption? options).isSome || (followOption? options).isSome ||
    (logLevelOption? options).isSome

def merged (s : Settings) (options : Json) : Settings where
  fileExtension := (extensionOption? options).getD s.fileExtension
  followTransitiveImports := (followOption? options).getD s.followTransitiveImports
  logLevel := (logLevelOption? options).getD s.logLevel

theorem merged_of_not_understands (s : Settings) (options : Json)
    (h : understands options = false) : s.merged options = s := by
  simp only [understands, Bool.or_eq_false_iff, Option.isSome_eq_false_iff,
    Option.isNone_iff_eq_none] at h
  simp [merged, h]

def describe (s : Settings) : String :=
  "Settings(file_extension=" ++ Text.quoted s.fileExtension ++ ", follow_transitive_imports=" ++
    (if s.followTransitiveImports then "True" else "False") ++ ", log_level=" ++
    Text.quoted s.logLevel ++ ")"

end Settings

end Mykt
