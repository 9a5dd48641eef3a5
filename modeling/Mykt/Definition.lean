import Mykt.Scope.Basic
import Mykt.Tree.Caret

/-!
From a name in a tree to its declaration: the innermost scope around the name is searched first,
then each scope around it.
-/

namespace Mykt

/-- A declaration and the range of the name that led to it. -/
structure Definition where
  symbol : Symbol
  location : Location
  origin : Range
  deriving DecidableEq, Repr

/-- Where a symbol is declared, and from where it was asked for. -/
structure Link where
  targetUri : String
  targetRange : Range
  targetSelectionRange : Range
  originSelectionRange : Option Range
  deriving DecidableEq, Repr

def Location.link (l : Location) (origin : Option Range) : Link :=
  ⟨l.uri, l.range, l.nameRange, origin⟩

def Definition.link (d : Definition) : Link := d.location.link (some d.origin)

/-- Kinds of leaves that can be asked for. -/
def Kind.isIdentifier (k : Kind) : Bool := k = .terminal .name || k = .rule .simpleIdentifier

namespace SymbolTable

/-- The declaration of what is written at a trail of the how-manieth tree. -/
def locate (table : SymbolTable) (document : Nat) (trail : Trail) (t : Tree) :
    Except RangeError (Option Definition) :=
  match table.find? (table.enclosing document trail) t.text with
  | none => .ok none
  | some symbol =>
    match symbol.location with
    | none => .ok none
    | some location => t.range.map fun origin => some ⟨symbol, location, origin⟩

def definitionAt (table : SymbolTable) (document : Nat) (t : Tree) (p : Position) :
    Except RangeError (Option Definition) :=
  match t.leafAt p.line p.character with
  | none => .ok none
  | some (trail, token) =>
    if token.kind.isIdentifier then table.locate document trail (.leaf token) else .ok none

end SymbolTable

end Mykt
