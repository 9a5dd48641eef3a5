import Mykt.Path
import Mykt.Text.Lines
import Mykt.Text.Utf8

/-!
A disk of files and directories. A name is looked up where the names before it have led, so `..`
leaves a directory only if it is there.
-/

namespace Mykt

namespace Disk

inductive Entry where
  | file (bytes : List UInt8)
  | directory
  deriving DecidableEq, Repr

inductive Fault where
  | notFound
  | alreadyThere
  | notDirectory
  | isDirectory
  | nameTooLong
  deriving DecidableEq, Repr

def Fault.number : Fault → Nat
  | notFound => 2
  | alreadyThere => 17
  | notDirectory => 20
  | isDirectory => 21
  | nameTooLong => 36

def Fault.reason : Fault → String
  | notFound => "No such file or directory"
  | alreadyThere => "File exists"
  | notDirectory => "Not a directory"
  | isDirectory => "Is a directory"
  | nameTooLong => "File name too long"

/-- Why a file could not be read or written, with the path as it was given. -/
inductive Error where
  | fault (f : Fault) (path : String)
  | nul
  | decode (e : Text.Utf8.DecodeError)
  deriving DecidableEq, Repr

def Error.message : Error → String
  | fault f path =>
    "[Errno " ++ toString f.number ++ "] " ++ f.reason ++ ": " ++ Text.quoted path
  | nul => "embedded null byte"
  | decode e => e.message

end Disk

structure Disk where
  /-- The working directory, absolute and without `..`. -/
  cwd : Path
  /-- Files and directories by their names from the root. -/
  entries : List (List String × Disk.Entry)
  deriving Repr

namespace Disk

/-- An empty working directory below the root. -/
def ofDirectory (name : String) : Disk := ⟨⟨1, [name]⟩, [([name], .directory)]⟩

/-- The root is always there. -/
def entry? (d : Disk) (place : List String) : Option Entry :=
  if place = [] then some .directory else d.entries.lookup place

def longestName : Nat := 255

def isTooLong (name : String) : Bool := longestName < name.utf8ByteSize

def longestPath : Nat := 4095

/-- A path is measured as it is written, whatever it stands for. -/
def isPathTooLong (p : Path) : Bool := longestPath < (toString p).utf8ByteSize

/-- Follows names from a place. -/
def follow (d : Disk) : List String → List String → Except Fault (List String)
  | place, [] =>
    match d.entry? place with
    | some _ => .ok place
    | none => .error .notFound
  | place, n :: ns =>
    match d.entry? place with
    | none => .error .notFound
    | some (.file _) => .error .notDirectory
    | some .directory =>
      if n = ".." then d.follow place.dropLast ns
      else if isTooLong n then .error .nameTooLong
      else d.follow (place ++ [n]) ns

/-- The names from the root of what a path stands for. -/
def place (d : Disk) (p : Path) : Except Fault (List String) :=
  if isPathTooLong p then .error .nameTooLong else d.follow [] (d.cwd.append p).names

def lookup (d : Disk) (p : Path) : Except Fault Entry := do
  let place ← d.place p
  match d.entry? place with
  | some e => return e
  | none => .error .notFound

def hasNul (p : Path) : Bool := p.names.any fun n => n.toList.contains '\x00'

/-- Whether a path is there. Only a path or a name that is too long is an error. -/
def exists? (d : Disk) (p : Path) : Except Error Bool :=
  if hasNul p then .ok false
  else
    match d.lookup p with
    | .ok _ => .ok true
    | .error .nameTooLong => .error (.fault .nameTooLong (toString p))
    | .error _ => .ok false

def isFile? (d : Disk) (p : Path) : Except Error Bool :=
  if hasNul p then .ok false
  else
    match d.lookup p with
    | .ok (.file _) => .ok true
    | .ok .directory => .ok false
    | .error .nameTooLong => .error (.fault .nameTooLong (toString p))
    | .error _ => .ok false

def readBytes (d : Disk) (p : Path) : Except Error (List UInt8) :=
  if hasNul p then .error .nul
  else
    match d.lookup p with
    | .ok (.file bytes) => .ok bytes
    | .ok .directory => .error (.fault .isDirectory (toString p))
    | .error f => .error (.fault f (toString p))

/-- The text of a file, with every line end a line feed. -/
def textOf (bytes : List UInt8) : Except Error (List Char) :=
  match Text.Utf8.decode bytes with
  | .ok cs => .ok (Text.unifyNewlines cs)
  | .error e => .error (.decode e)

def readText (d : Disk) (p : Path) : Except Error String := do
  let bytes ← d.readBytes p
  let cs ← textOf bytes
  return String.ofList cs

def put (place : List String) (e : Entry) :
    List (List String × Entry) → List (List String × Entry)
  | [] => [(place, e)]
  | x :: xs => if x.1 = place then (place, e) :: xs else x :: put place e xs

/-- Makes one directory. -/
def makeDirectory (d : Disk) (p : Path) : Except Fault Disk :=
  if isPathTooLong p then .error .nameTooLong
  else
    match d.place p.parent, p.names.getLast? with
    | .error f, _ => .error f
    | .ok _, none => .error .alreadyThere
    | .ok place, some name =>
      match d.entry? place with
      | some .directory =>
        if name = ".." then .error .alreadyThere
        else if isTooLong name then .error .nameTooLong
        else
          match d.entry? (place ++ [name]) with
          | some _ => .error .alreadyThere
          | none => .ok { d with entries := put (place ++ [name]) .directory d.entries }
      | some (.file _) => .error .notDirectory
      | none => .error .notFound

def isDirectory (d : Disk) (p : Path) : Bool :=
  match d.lookup p with
  | .ok .directory => true
  | _ => false

/-- A change of a disk. What is done before it fails stays. -/
abbrev Change := EStateM Error Disk

def Change.ofExcept (f : Disk → Except Error Disk) : Change Unit := fun d =>
  match f d with
  | .ok d => .ok () d
  | .error e => .error e d

/-- Makes one directory unless it is there. -/
def ensureDirectory (p : Path) (d : Disk) : Except Error Disk :=
  match d.makeDirectory p with
  | .ok d => .ok d
  | .error f => if d.isDirectory p then .ok d else .error (.fault f (toString p))

/-- Makes a directory and those that it needs, at most `n` of them. -/
def makeWithin : Nat → Path → Change Unit
  | 0, p => throw (.fault .notFound (toString p))
  | n + 1, p => do
    if (← get).makeDirectory p matches .error .notFound then makeWithin n p.parent
    Change.ofExcept (ensureDirectory p)

/-- Makes a directory, with those that it needs, unless it is there. -/
def makeDirectories (p : Path) : Change Unit :=
  if hasNul p then throw .nul else makeWithin (p.names.length + 1) p

/-- Writes a file into a directory that is there. -/
def writeFile (d : Disk) (p : Path) (bytes : List UInt8) : Except Error Disk :=
  let failed (f : Fault) : Except Error Disk := .error (.fault f (toString p))
  if hasNul p then .error .nul
  else
    match d.lookup p with
    | .ok .directory => failed .isDirectory
    | .ok (.file _) =>
      match d.place p with
      | .ok place => .ok { d with entries := put place (.file bytes) d.entries }
      | .error f => failed f
    | .error .notFound =>
      match d.place p.parent, p.names.getLast? with
      | .ok place, some name =>
        .ok { d with entries := put (place ++ [name]) (.file bytes) d.entries }
      | .ok _, none => failed .isDirectory
      | .error f, _ => failed f
    | .error f => failed f

/-- Writes a file, with the directories that it needs. -/
def write (p : Path) (bytes : List UInt8) : Change Unit := do
  makeDirectories p.parent
  Change.ofExcept fun d => d.writeFile p bytes

/-- Removes a file, or a directory with all that is below it. -/
def remove (p : Path) : Change Unit :=
  if hasNul p then throw .nul
  else
    Change.ofExcept fun d =>
      match d.place p with
      | .ok place => .ok { d with entries := d.entries.filter fun e => !place.isPrefixOf e.1 }
      | .error f => .error (.fault f (toString p))

/-- Writes texts below a directory one after the other, and gives the path of each. -/
def writeAll (directory : Path) : List (String × String) → Change (List (String × Path))
  | [] => pure []
  | (key, text) :: rest => do
    let p := directory.append (.ofString key)
    write p (Text.Utf8.encode text.toList)
    let paths ← writeAll directory rest
    return (key, p) :: paths

end Disk

end Mykt
