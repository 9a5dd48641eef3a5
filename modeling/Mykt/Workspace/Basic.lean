import Mykt.Disk
import Mykt.Uri.Address
import Mykt.Workspace.Edit

/-!
The documents of an editor. Open documents are known by their decoded addresses; any other document
is read from the disk.
-/

namespace Mykt

inductive WorkspaceError where
  | host (e : Uri.HostError)
  | disk (e : Disk.Error)
  | closed (uri : String)
  deriving DecidableEq, Repr

structure Workspace where
  documents : List (String × String)
  deriving DecidableEq, Repr

namespace Workspace

def empty : Workspace := ⟨[]⟩

def key (uri : String) : String := String.ofList (Uri.decode uri.toList)

/-- A drive is written small and without a slash. -/
def smallDrive : List Char → List Char
  | '/' :: drive :: ':' :: rest =>
    if Uri.isLetter drive then drive.toLower :: ':' :: rest else '/' :: drive :: ':' :: rest
  | path => path

/-- The path of a document. In the address of a file a host stands before the path; in any other
address only the path counts, as it is. -/
def pathOf (uri : String) : Except Uri.HostError Path := do
  let a ← Uri.Address.ofString uri
  let host := Uri.decode a.host
  let path := Uri.decode a.path
  return .ofString <| String.ofList <|
    if a.scheme ≠ Uri.fileScheme then path
    else if host ≠ [] && path ≠ [] then '/' :: '/' :: host ++ path
    else smallDrive path

/-- Adds an open document, in place of one of the same address. -/
def opened (w : Workspace) (uri text : String) : Except WorkspaceError Workspace :=
  match pathOf uri with
  | .error e => .error (.host e)
  | .ok _ => .ok ⟨(key uri, text) :: w.documents.filter (·.1 ≠ key uri)⟩

def closed (w : Workspace) (uri : String) : Workspace :=
  ⟨w.documents.filter (·.1 ≠ key uri)⟩

/-- Changes an open document by edits, one after the other. -/
def changed (w : Workspace) (uri : String) (edits : List Edit) :
    Except WorkspaceError Workspace :=
  match w.documents.lookup (key uri) with
  | none => .error (.closed (key uri))
  | some text =>
    .ok ⟨(key uri, edits.foldl Edit.apply text) :: w.documents.filter (·.1 ≠ key uri)⟩

/-- The current text of a document. -/
def text (w : Workspace) (d : Disk) (uri : String) : Except WorkspaceError String :=
  match w.documents.lookup (key uri) with
  | some t => .ok t
  | none =>
    match pathOf uri with
    | .error e => .error (.host e)
    | .ok p => (d.readText p).mapError .disk

end Workspace

end Mykt
