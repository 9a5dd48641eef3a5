import Mykt.Json
import Mykt.Position

/-!
Scopes and the symbols that they hold. A scope holds its inner scopes, so that a trail of indexes
names a scope and the tails of the trail name the scopes around it. Main statements: a symbol that
is defined is found by its name, every other name is looked up as before, and a name keeps its
place.
-/

namespace Mykt

inductive SymbolKind where
  | value
  | routine
  | parameter
  deriving DecidableEq, Repr

namespace SymbolKind

def label : SymbolKind → String
  | value => "variable"
  | routine => "routine"
  | parameter => "parameter"

def ofLabel? (s : String) : Option SymbolKind := [value, routine, parameter].find? (·.label = s)

theorem ofLabel?_label (k : SymbolKind) : ofLabel? k.label = some k := by
  cases k <;> decide

end SymbolKind

/-- Where a symbol is declared: the document, the whole declaration, and the name in it. -/
structure Location where
  uri : String
  range : Range
  nameRange : Range
  deriving DecidableEq, Repr

structure Symbol where
  name : String
  kind : SymbolKind
  location : Option Location
  /-- The scope that the declaration opens. -/
  opens : Option Trail
  deriving DecidableEq, Repr

/-- The tree node that a scope belongs to: the how-manieth tree, and where in it. -/
structure Anchor where
  document : Nat
  trail : Trail
  kind : Kind
  deriving DecidableEq, Repr

inductive Scope where
  | mk (anchor : Option Anchor) (symbols : List Symbol) (inner : List Scope)
  deriving Repr

namespace Scope

def anchor : Scope → Option Anchor
  | mk a _ _ => a

def symbols : Scope → List Symbol
  | mk _ ss _ => ss

def inner : Scope → List Scope
  | mk _ _ is => is

def root : Scope := mk none [] []

def names (s : Scope) : List String := s.symbols.map (·.name)

def lookup? (s : Scope) (name : String) : Option Symbol := s.symbols.find? (·.name = name)

/-- A symbol takes the place of an earlier one of its name, or comes last. -/
def insert (x : Symbol) : List Symbol → List Symbol
  | [] => [x]
  | y :: ys => if y.name = x.name then x :: ys else y :: insert x ys

theorem find?_insert (x : Symbol) (ss : List Symbol) (name : String) :
    (insert x ss).find? (·.name = name) =
      if x.name = name then some x else ss.find? (·.name = name) := by
  induction ss with
  | nil => by_cases h : x.name = name <;> simp [insert, h]
  | cons y ys ih =>
    by_cases hy : y.name = x.name <;> by_cases h : x.name = name <;>
      simp_all [insert, List.find?_cons]

/-- A name keeps the place that it was first given. -/
theorem map_name_insert (x : Symbol) (ss : List Symbol) :
    (insert x ss).map (·.name) =
      if x.name ∈ ss.map (·.name) then ss.map (·.name) else ss.map (·.name) ++ [x.name] := by
  induction ss with
  | nil => simp [insert]
  | cons y ys ih =>
    by_cases hy : y.name = x.name
    · simp [insert, hy]
    · have hx : x.name ≠ y.name := fun h => hy h.symm
      by_cases h : x.name ∈ ys.map (·.name) <;> simp_all [insert]

def define (x : Symbol) : Scope → Scope
  | mk a ss is => mk a (insert x ss) is

theorem lookup?_define (x : Symbol) (s : Scope) (name : String) :
    (s.define x).lookup? name = if x.name = name then some x else s.lookup? name := by
  cases s
  exact find?_insert x _ name

/-- Adds an empty inner scope after the others. -/
def openInner (anchor : Anchor) : Scope → Scope
  | mk a ss is => mk a ss (is ++ [mk (some anchor) [] []])

/-- Goes inward by indexes, the outermost first. -/
def descend (s : Scope) : List Nat → Option Scope
  | [] => some s
  | i :: is => s.inner[i]?.bind (·.descend is)

def at? (s : Scope) (trail : Trail) : Option Scope := s.descend trail.reverse

def modifyDown (f : Scope → Scope) : List Nat → Scope → Scope
  | [], s => f s
  | i :: is, mk a ss cs => mk a ss (cs.modify i (modifyDown f is))

def modifyAt (s : Scope) (trail : Trail) (f : Scope → Scope) : Scope :=
  modifyDown f trail.reverse s

mutual

/-- The scope and all within it, each before its inner ones, with their trails. -/
def outline (trail : Trail) : Scope → List (Trail × Scope)
  | mk a ss is => (trail, mk a ss is) :: outlineOf trail 0 is

def outlineOf (trail : Trail) (index : Nat) : List Scope → List (Trail × Scope)
  | [] => []
  | s :: ss => s.outline (index :: trail) ++ outlineOf trail (index + 1) ss

end

def describe (s : Scope) : String :=
  let anchor := match s.anchor with
    | some a => a.kind.label
    | none => "<global>"
  "Scope(" ++ anchor ++ ", symbols=" ++ Text.quotedList s.names ++ ")"

end Scope

/-- The scopes of one session. -/
structure SymbolTable where
  root : Scope
  /-- How many trees have been visited. -/
  visits : Nat
  deriving Repr

namespace SymbolTable

def empty : SymbolTable := ⟨.root, 0⟩

def scopes (t : SymbolTable) : List (Trail × Scope) := t.root.outline []

def symbols (t : SymbolTable) : List Symbol := t.scopes.flatMap (·.2.symbols)

def globals (t : SymbolTable) : List String := t.root.names

/-- The trail of the scope that belongs to a tree node. -/
def scopeFor? (t : SymbolTable) (document : Nat) (trail : Trail) : Option Trail :=
  (t.scopes.find? fun (_, s) =>
    match s.anchor with
    | some a => a.document = document && a.trail = trail
    | none => false).map (·.1)

/-- The innermost scope that belongs to a tree node or to one around it. -/
def enclosing (t : SymbolTable) (document : Nat) (trail : Trail) : Trail :=
  ((Trail.upward trail).findSome? (t.scopeFor? document)).getD []

/-- The nearest symbol of a name that has a location, from a scope outwards. -/
def find? (t : SymbolTable) (scope : Trail) (name : String) : Option Symbol :=
  (Trail.upward scope).findSome? fun trail =>
    ((t.root.at? trail).bind (·.lookup? name)).filter (·.location.isSome)

end SymbolTable

end Mykt
