import Mykt.Text.Number
import Mykt.Text.Quoted

/-!
Arguments of a command line. Options may be shortened as long as they are told apart, and take their
value from the next argument or after an equals sign; after two dashes nothing is an option. Two
dashes in the place of a value leave it blank.
-/

namespace Mykt.Command

inductive ValueKind where
  | none
  | text
  | integer
  deriving DecidableEq, Repr

inductive Value where
  | set
  | text (s : String)
  | integer (n : Int)
  | blank
  deriving DecidableEq, Repr

structure Flag where
  names : List String
  kind : ValueKind
  deriving DecidableEq, Repr

def Flag.title (f : Flag) : String := "/".intercalate f.names

inductive ArgumentError where
  | ambiguous (option : String) (candidates : List String)
  | missingValue (flag : Flag)
  | ignoredValue (flag : Flag) (value : String)
  | notInteger (title value : String)
  | unknownCommand (value : String) (commands : List String)
  | required (titles : List String)
  | unrecognized (arguments : List String)
  deriving DecidableEq, Repr

def ArgumentError.message : ArgumentError → String
  | ambiguous option candidates =>
    "ambiguous option: " ++ option ++ " could match " ++ ", ".intercalate candidates
  | missingValue f => "argument " ++ f.title ++ ": expected one argument"
  | ignoredValue f v =>
    "argument " ++ f.title ++ ": ignored explicit argument " ++ Text.quoted v
  | notInteger title v => "argument " ++ title ++ ": invalid int value: " ++ Text.quoted v
  | unknownCommand v commands =>
    "argument command: invalid choice: " ++ Text.quoted v ++ " (choose from " ++
      ", ".intercalate (commands.map Text.quoted) ++ ")"
  | required titles => "the following arguments are required: " ++ ", ".intercalate titles
  | unrecognized arguments => "unrecognized arguments: " ++ " ".intercalate arguments

/-- What ends the reading of a command line early. -/
inductive Stop where
  | usage (program : String) (e : ArgumentError)
  | version
  | help
  /-- The log level was left blank. -/
  | noLevel
  deriving DecidableEq, Repr

/-- An option found in an argument. -/
structure Found where
  flag : Flag
  value : Option String
  /-- Whether its name has a single dash. -/
  short : Bool
  deriving DecidableEq, Repr

inductive Word where
  | plain (s : String)
  | dashes
  | option (s : String) (found : Option Found)
  deriving DecidableEq, Repr

def Word.written : Word → String
  | plain s => s
  | dashes => "--"
  | option s _ => s

structure Grammar where
  program : String
  flags : List Flag
  /-- Titles and kinds of the arguments that are not options. -/
  positionals : List (String × ValueKind)
  /-- Whether the first argument that is no option names a command, which takes all that follows. -/
  handsOver : Bool
  deriving DecidableEq, Repr

namespace Grammar

/-- All names of options with their flags. -/
def names (g : Grammar) : List (String × Flag) :=
  g.flags.flatMap fun f => f.names.map fun n => (n, f)

/-- What stands before the first equals sign and what follows it. -/
def splitValue (s : String) : String × Option String :=
  let name := s.toList.takeWhile (· ≠ '=')
  match s.toList.drop name.length with
  | _ :: value => (String.ofList name, some (String.ofList value))
  | [] => (s, none)

def startsWith (s start : String) : Bool := s.toList.take start.length = start.toList

/-- The options that an argument with dashes could stand for, with their names. -/
def candidates (g : Grammar) (s : String) : List (String × Found) :=
  match s.toList with
  | '-' :: '-' :: _ =>
    let (name, value) := splitValue s
    (g.names.filter fun (n, _) => startsWith n name).map fun (n, f) => (n, ⟨f, value, false⟩)
  | _ =>
    (g.names.filter fun (n, _) => n.length = 2 && startsWith s n).map fun (n, f) =>
      (n, ⟨f, some (String.ofList (s.toList.drop 2)), true⟩)

def option (g : Grammar) (s : String) : Except Stop Word :=
  let (name, value) := splitValue s
  let short := !startsWith s "--"
  match g.names.lookup s, g.names.lookup name with
  | some f, _ => .ok (.option s (some ⟨f, none, short⟩))
  | none, some f => .ok (.option s (some ⟨f, value, short⟩))
  | none, none =>
    match g.candidates s with
    | [(_, found)] => .ok (.option s (some found))
    | [] =>
      if Text.looksNegative s || s.toList.contains ' ' then .ok (.plain s)
      else .ok (.option s none)
    | several => .error (.usage g.program (.ambiguous s (several.map (·.1))))

def classify (g : Grammar) : List String → Except Stop (List Word)
  | [] => .ok []
  | "--" :: rest => .ok (.dashes :: rest.map .plain)
  | s :: rest => do
    let w ← if s.toList.head? = some '-' && s ≠ "-" then g.option s else .ok (.plain s)
    let ws ← g.classify rest
    return w :: ws

end Grammar

/-- What has been read from a command line. -/
structure Reading where
  /-- Values by title, the latest first. -/
  values : List (String × Value)
  awaited : List (String × ValueKind)
  extras : List String
  /-- The command and its arguments. -/
  command : Option (List String)
  deriving DecidableEq, Repr

namespace Reading

def put (r : Reading) (title : String) (v : Value) : Reading :=
  { r with values := (title, v) :: r.values }

def leave (r : Reading) (s : String) : Reading := { r with extras := r.extras ++ [s] }

/-- The text given under a title; within it, none stands for blank. -/
def text? (r : Reading) (title : String) : Option (Option String) :=
  match r.values.lookup title with
  | some (.text s) => some (some s)
  | some .blank => some none
  | _ => none

/-- The number given under a title; within it, none stands for blank. -/
def integer? (r : Reading) (title : String) : Option (Option Int) :=
  match r.values.lookup title with
  | some (.integer n) => some (some n)
  | some .blank => some none
  | _ => none

def isSet (r : Reading) (title : String) : Bool := (r.values.lookup title).isSome

end Reading

namespace Grammar

def convert (g : Grammar) (title : String) (kind : ValueKind) (s : String) : Except Stop Value :=
  match kind with
  | .integer =>
    match Text.integer? s with
    | some n => .ok (.integer n)
    | none => .error (.usage g.program (.notInteger title s))
  | _ => .ok (.text s)

def convertOrBlank (g : Grammar) (title : String) (kind : ValueKind) (s : String) :
    Except Stop Value :=
  if s = "--" then .ok .blank else g.convert title kind s

def versionFlag : Flag := ⟨["--version"], .none⟩

def helpFlag : Flag := ⟨["-h", "--help"], .none⟩

/-- An option without a value; two of them end the reading. -/
def set (r : Reading) (f : Flag) : Except Stop Reading :=
  if f = versionFlag then .error .version
  else if f = helpFlag then .error .help
  else .ok (r.put f.title .set)

def give (g : Grammar) (r : Reading) (f : Flag) (s : String) : Except Stop Reading := do
  let v ← g.convertOrBlank f.title f.kind s
  return r.put f.title v

/-- An option and those that the letters after it stand for. A letter of no option is refused
together with what follows it. -/
def cluster (g : Grammar) (f : Flag) : List Char → Except Stop (List Flag)
  | [] => .ok [f]
  | c :: cs =>
    match g.names.lookup (String.ofList ['-', c]) with
    | some next => do
      let fs ← g.cluster next cs
      return f :: fs
    | none => .error (.usage g.program (.ignoredValue f (String.ofList (c :: cs))))

/-- A value given to an option that takes none is refused, unless it stands for more options. -/
def explicit (g : Grammar) (r : Reading) (found : Found) (value : String) :
    Except Stop Reading :=
  if found.flag.kind ≠ .none then g.give r found.flag value
  else if found.short && value ≠ "" then do
    let fs ← g.cluster found.flag value.toList
    fs.foldlM set r
  else .error (.usage g.program (.ignoredValue found.flag value))

/-- What the next word follows. -/
inductive Before where
  /-- An argument that was taken. -/
  | taken
  /-- Two dashes that go with the next argument. -/
  | dashes
  | other
  deriving DecidableEq, Repr

/-- Reads words in order. Two dashes are dropped next to an argument that is taken; after those that
go with it, an argument is never blank. -/
def read (g : Grammar) : List Word → Before → Reading → Except Stop Reading
  | [], _, r => .ok r
  | .plain s :: ws, before, r =>
    if g.handsOver then .ok { r with command := some (s :: ws.map Word.written) }
    else
      match r.awaited with
      | (title, kind) :: awaited => do
        let v ← if before = .dashes then g.convert title kind s else g.convertOrBlank title kind s
        g.read ws .taken ({ r with awaited }.put title v)
      | [] => g.read ws .other (r.leave s)
  | .dashes :: ws, before, r =>
    if g.handsOver && ws ≠ [] then .ok { r with command := some ("--" :: ws.map Word.written) }
    else if before = .taken then g.read ws .other r
    else if r.awaited ≠ [] && ws ≠ [] then g.read ws .dashes r
    else g.read ws .other (r.leave "--")
  | .option s none :: ws, _, r => g.read ws .other (r.leave s)
  | .option _ (some ⟨f, some value, short⟩) :: ws, _, r => do
    let r ← g.explicit r ⟨f, some value, short⟩ value
    g.read ws .other r
  | .option _ (some ⟨f, none, _⟩) :: .plain s :: ws, _, r =>
    if f.kind = .none then do
      let r ← set r f
      g.read (.plain s :: ws) .other r
    else do
      let r ← g.give r f s
      g.read ws .other r
  | .option _ (some ⟨f, none, _⟩) :: ws, _, r =>
    if f.kind = .none then do
      let r ← set r f
      g.read ws .other r
    else .error (.usage g.program (.missingValue f))

def parse (g : Grammar) (arguments : List String) : Except Stop Reading := do
  let ws ← g.classify arguments
  let r ← g.read ws .other ⟨[], g.positionals, [], none⟩
  if r.awaited ≠ [] then .error (.usage g.program (.required (r.awaited.map (·.1))))
  return r

end Grammar

end Mykt.Command
