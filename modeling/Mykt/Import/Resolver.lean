import Mykt.Declaration
import Mykt.Diagnostic
import Mykt.Disk
import Mykt.Grammar.Parser
import Mykt.Import.Header
import Mykt.Import.Target

/-!
Folding imported files into a session. Each file is folded at most once, after the files that it
imports; a file that is missing or cannot be read becomes a diagnostic at the header that names it.
-/

namespace Mykt.Import

/-- Why the text of an existing file was not understood. -/
inductive Cause where
  | disk (e : Disk.Error)
  | parse (e : ParseError)
  deriving DecidableEq, Repr

def Cause.message : Cause → String
  | disk e => e.message
  | parse e => e.message

inductive Failure where
  | notFound (path : Path)
  | unreadable (path : Path) (cause : Cause)
  deriving DecidableEq, Repr

namespace Failure

def message : Failure → String
  | notFound p => "Imported file not found: " ++ toString p
  | unreadable p c => "Cannot read from imported file " ++ toString p ++ ": " ++ c.message

def code : Failure → String
  | notFound _ => "import-not-found"
  | unreadable _ _ => "import-read-failure"

def level : Failure → Event.Level
  | notFound _ => .info
  | unreadable _ _ => .warning

def event (f : Failure) : Event := ⟨f.level, .imports, f.message⟩

def diagnostic (f : Failure) (uri : String) (range : Range) : Diagnostic where
  message := f.message
  code := some f.code
  phase := some "imports"
  severity := "warning"
  span := .ofRange (some uri) (some range)

end Failure

/-- What ends a session. -/
inductive Error where
  | header (e : HeaderError)
  | host (e : Uri.HostError)
  | range (e : RangeError)
  | declaration (e : DeclarationError)
  deriving DecidableEq, Repr

def Error.message : Error → String
  | header e => e.message
  | host e => e.message
  | range e => e.message
  | declaration e => e.message

structure Session where
  fold : Fold
  /-- The files folded so far or not to be folded. -/
  visited : List Path
  diagnostics : List Diagnostic
  deriving Repr

structure Options where
  disk : Disk
  extension : String
  transitive : Bool
  deriving Repr

abbrev Step := EStateM Error Session

namespace Session

def start : Session := ⟨.start, [], []⟩

def tell (s : Session) (e : Event) : Session :=
  { s with fold := { s.fold with events := s.fold.events ++ [e] } }

def visit (uri : String) (t : Tree) : Step Unit := fun s =>
  match Fold.visit uri t s.fold with
  | .ok () f => .ok () { s with fold := f }
  | .error e f => .error (.declaration e) { s with fold := f }

end Session

def liftExcept {ε α : Type} (f : ε → Error) : Except ε α → Step α
  | .ok a => pure a
  | .error e => throw (f e)

/-- Keeps a document from being folded. -/
def markVisited (cwd : Path) (uri : String) : Step Unit := do
  let p ← liftExcept .host (Uri.toPath cwd uri)
  modify fun s => { s with visited := Path.normalize cwd p :: s.visited }

def load (d : Disk) (p : Path) : Except Cause Tree :=
  match d.readText p with
  | .error e => .error (.disk e)
  | .ok text => (parse text).mapError .parse

/-- What became of an import. -/
inductive Found where
  | failed (f : Failure)
  | skipped
  | loaded (t : Tree)
  deriving Repr

def skipEvent (p : Path) : Event :=
  ⟨.debug, .imports, "skipping " ++ toString p ++ ": already folded into this session"⟩

/-- Looks an import up; a file that is there counts as visited from now on. -/
def look (d : Disk) (p : Path) : Step Found := fun s =>
  match d.exists? p with
  | .error e => .ok (.failed (.unreadable p (.disk e))) s
  | .ok false => .ok (.failed (.notFound p)) s
  | .ok true =>
    let key := Path.normalize d.cwd p
    if s.visited.contains key then .ok .skipped (s.tell (skipEvent p))
    else
      let s := { s with visited := key :: s.visited }
      match load d p with
      | .error c => .ok (.failed (.unreadable p c)) s
      | .ok t => .ok (.loaded t) s

/-- Reports a failed import at its header. -/
def report (f : Failure) (uri : String) (header : Tree) : Step Unit := do
  modify (·.tell f.event)
  let range ← liftExcept .range header.range
  modify fun s => { s with diagnostics := s.diagnostics ++ [f.diagnostic uri range] }

/-- Folds the file of one header, its own imports first. -/
def resolveHeader (o : Options) (recurse : List Tree → String → Step Unit) (uri : String)
    (directory : Path) (header : Tree) : Step Unit := do
  let name ← liftExcept .header header.importName
  let relative := relativePath name o.extension
  let importUri := Uri.base uri ++ relative
  match ← look o.disk (target directory relative) with
  | .failed f => report f uri header
  | .skipped => pure ()
  | .loaded t => do
    if o.transitive then recurse t.importHeaders importUri
    Session.visit importUri t

/-- Folds the files of the headers of a document in order, at most `n` files deep. -/
def resolveWithin (o : Options) : Nat → List Tree → String → Step Unit
  | 0, _, _ => pure ()
  | n + 1, headers, uri => do
    let directory ← liftExcept .host (Uri.toPath o.disk.cwd (Uri.base uri))
    headers.forM (resolveHeader o (resolveWithin o n) uri directory)

/-- Files nest no deeper than there are paths to fold: each entry of the disk is below the root with
one slash, with two, and with as many as the working directory has. -/
def depth (d : Disk) : Nat := 3 * d.entries.length + 1

def resolve (o : Options) (headers : List Tree) (uri : String) : Step Unit :=
  resolveWithin o (depth o.disk) headers uri

/-- Folds the imports of one document by themselves: only the document counts as visited, and
diagnostics of earlier documents are left out. -/
def resolveAlone (d : Disk) (extension : String) (headers : List Tree) (uri : String) :
    Step Unit := do
  modify fun s => { s with visited := [], diagnostics := [] }
  markVisited d.cwd uri
  resolve ⟨d, extension, true⟩ headers uri

end Mykt.Import
