import Mykt.Event
import Mykt.Scope.Basic

/-!
Folding the declarations of a tree into a table, in document order. A routine is declared in the
scope around it and opens a scope of its own for everything below its node; a parameter holds no
further declarations. A visit that fails keeps what it has declared.
-/

namespace Mykt

inductive DeclarationError where
  | unnamed (kind : Kind)
  | range (e : RangeError)
  deriving DecidableEq, Repr

def DeclarationError.message : DeclarationError → String
  | unnamed k => k.label ++ " without a name"
  | range e => e.message

/-- A table in the making, with what has been told so far. -/
structure Fold where
  table : SymbolTable
  events : List Event
  deriving Repr

namespace Fold

def start : Fold := ⟨.empty, []⟩

abbrev Step := EStateM DeclarationError Fold

/-- What the kind of a node declares. -/
def declares : Kind → Option SymbolKind
  | .rule .variableDeclaration => some .value
  | .rule .functionDeclaration => some .routine
  | .rule .functionValueParameter => some .parameter
  | _ => none

/-- The name and the place of a declaration. -/
def locate (uri : String) (t : Tree) : Except DeclarationError (String × Location) :=
  match t.child? (.rule .simpleIdentifier) with
  | none => .error (.unnamed t.kind)
  | some name =>
    match t.range, name.range with
    | .error e, _ => .error (.range e)
    | .ok _, .error e => .error (.range e)
    | .ok range, .ok nameRange => .ok (name.text, ⟨uri, range, nameRange⟩)

def redeclaration (name : String) (s : Scope) : Event where
  level := .debug
  source := .declarations
  message := "redeclaration of '" ++ name ++ "' in " ++ s.describe ++
    " replaces the earlier entry"

def define (f : Fold) (scope : Trail) (x : Symbol) : Fold where
  table := { f.table with root := f.table.root.modifyAt scope (·.define x) }
  events :=
    match f.table.root.at? scope with
    | some s => if s.names.contains x.name then f.events ++ [redeclaration x.name s] else f.events
    | none => f.events

def openInner (f : Fold) (scope : Trail) (a : Anchor) : Fold :=
  { f with table := { f.table with root := f.table.root.modifyAt scope (·.openInner a) } }

/-- The trail of the next scope to be opened in a scope. -/
def nextInner (f : Fold) (scope : Trail) : Trail :=
  ((f.table.root.at? scope).map (·.inner.length)).getD 0 :: scope

/-- Declares a node in a scope and gives the scope that its children are visited in, if any. -/
def declare (uri : String) (trail scope : Trail) (kind : SymbolKind) (t : Tree) :
    Step (Option Trail) := fun f =>
  match locate uri t with
  | .error e => .error e f
  | .ok (name, location) =>
    match kind with
    | .value => .ok (some scope) (f.define scope ⟨name, kind, some location, none⟩)
    | .parameter => .ok none (f.define scope ⟨name, kind, some location, none⟩)
    | .routine =>
      let inner := f.nextInner scope
      let f := f.define scope ⟨name, kind, some location, some inner⟩
      .ok (some inner) (f.openInner scope ⟨f.table.visits, trail, t.kind⟩)

def enter (uri : String) (trail scope : Trail) (t : Tree) : Step (Option Trail) :=
  match declares t.kind with
  | some kind => declare uri trail scope kind t
  | none => pure (some scope)

mutual

/-- Leaves below the root declare nothing. -/
def visitTree (uri : String) (trail scope : Trail) : Tree → Step Unit
  | .leaf t => do
    let _ ← enter uri trail scope (.leaf t)
  | .node k cs => do
    match ← enter uri trail scope (.node k cs) with
    | some inner => visitAll uri trail inner 0 cs
    | none => pure ()

def visitAll (uri : String) (trail scope : Trail) (index : Nat) : List Tree → Step Unit
  | [] => pure ()
  | .leaf _ :: ts => visitAll uri trail scope (index + 1) ts
  | .node k cs :: ts => do
    visitTree uri (index :: trail) scope (.node k cs)
    visitAll uri trail scope (index + 1) ts

end

/-- Counts the visit, whether or not it succeeds. -/
def visit (uri : String) (t : Tree) : Step Unit := fun f =>
  let counted (f : Fold) : Fold :=
    { f with table := { f.table with visits := f.table.visits + 1 } }
  match visitTree uri [] [] t f with
  | .ok () f => .ok () (counted f)
  | .error e f => .error e (counted f)

end Fold

/-- The table of a single tree. -/
def SymbolTable.ofTree (uri : String) (t : Tree) : Except DeclarationError SymbolTable :=
  match Fold.visit uri t .start with
  | .ok () f => .ok f.table
  | .error e _ => .error e

end Mykt
