import Mykt.Declaration
import Mykt.Linked
import Mykt.Scope.Dump

/-!
Scopes that are linked both ways, and visits without recursion that fill them: a stack holds the
nodes that are still to be entered, each with the scope that it is entered in.
-/

namespace Mykt

namespace Registry

/-- A symbol whose scope is told by its number. -/
structure Entry where
  name : String
  kind : SymbolKind
  location : Option Location
  opens : Option Nat
  deriving DecidableEq, Repr

/-- The symbol, where scopes are told by their trails. -/
def Entry.symbol (place : Nat → Trail) (e : Entry) : Symbol :=
  ⟨e.name, e.kind, e.location, e.opens.map place⟩

/-- What a scope opens is not printed. -/
def Entry.toJson (e : Entry) : Json := (e.symbol fun _ => []).toJson

/-- What a linked scope holds itself. -/
structure Frame where
  anchor : Option Anchor
  entries : List Entry
  deriving Repr

namespace Frame

def empty : Frame := ⟨none, []⟩

def names (s : Frame) : List String := s.entries.map (·.name)

def lookup? (s : Frame) (name : String) : Option Entry := s.entries.find? (·.name = name)

/-- An entry takes the place of an earlier one of its name, or comes last. -/
def insert (x : Entry) : List Entry → List Entry
  | [] => [x]
  | y :: ys => if y.name = x.name then x :: ys else y :: insert x ys

def define (x : Entry) (s : Frame) : Frame := { s with entries := insert x s.entries }

/-- The scope that holds other scopes as well. -/
def scope (place : Nat → Trail) (s : Frame) (inner : List Scope) : Scope :=
  .mk s.anchor (s.entries.map (·.symbol place)) inner

def describe (s : Frame) : String := (s.scope (fun _ => []) []).describe

end Frame

end Registry

/-- Linked scopes in the making, with what has been told so far. The root is scope 0. -/
structure Registry where
  frames : Linked Registry.Frame
  /-- The scopes of tree nodes, the latest first. -/
  index : List (Anchor × Nat)
  /-- How many trees have been visited. -/
  visits : Nat
  events : List Event

namespace Registry

def start : Registry := ⟨Linked.empty.plant .empty none, [], 0, []⟩

def frame (g : Registry) (n : Nat) : Frame := (g.frames.value? n).getD .empty

def scopes (g : Registry) : List Nat := g.frames.walk 0

def entries (g : Registry) : List Entry := g.scopes.flatMap fun n => (g.frame n).entries

def chain (g : Registry) (n : Nat) : List Nat := g.frames.chain n

def dumpAt (g : Registry) (n : Nat) : Json :=
  g.frames.fold (fun n inner =>
    .object [("anchor", Anchor.toJson (g.frame n).anchor),
      ("symbols", .array ((g.frame n).entries.map Entry.toJson)), ("scopes", .array inner)]) n

def dump (g : Registry) : Json := g.dumpAt 0

def scopeFor? (g : Registry) (document : Nat) (trail : Trail) : Option Nat :=
  (g.index.find? fun x => x.1.document = document && x.1.trail = trail).map (·.2)

/-- The nearest entry of a name that has a location, from a scope outwards. -/
def find? (g : Registry) (scope : Nat) (name : String) : Option Entry :=
  (g.chain scope).findSome? fun n => ((g.frame n).lookup? name).filter (·.location.isSome)

/-- Puts an entry into a scope. -/
def record (g : Registry) (scope : Nat) (x : Entry) : Registry :=
  { g with frames := g.frames.modify scope (·.define x) }

/-- Puts an entry into a scope, and tells if it takes the place of another. -/
def define (g : Registry) (scope : Nat) (x : Entry) : Registry :=
  let s := g.frame scope
  let told :=
    if s.names.contains x.name then [Fold.redeclaration x.name (s.scope (fun _ => []) [])] else []
  { g.record scope x with events := g.events ++ told }

/-- Opens a scope within a scope. -/
def openScope (g : Registry) (scope : Nat) (a : Anchor) : Registry :=
  { g with
    frames := g.frames.hang scope [⟨some a, []⟩]
    index := (a, g.frames.size) :: g.index }

/-- Opens a scope within a scope, for an entry that was made before. -/
def openFor (g : Registry) (scope : Nat) (a : Anchor) (x : Entry) : Registry :=
  (g.openScope scope a).record scope { x with opens := some g.frames.size }

abbrev Step := EStateM DeclarationError Registry

/-- Declares a node in a scope and gives the scope that its children are visited in, if any. -/
def declare (uri : String) (trail : Trail) (scope : Nat) (kind : SymbolKind) (t : Tree) :
    Step (Option Nat) := fun g =>
  match Fold.locate uri t with
  | .error e => .error e g
  | .ok (name, location) =>
    let x : Entry := ⟨name, kind, some location, none⟩
    let declared := g.define scope x
    match kind with
    | .value => .ok (some scope) declared
    | .parameter => .ok none declared
    | .routine =>
      .ok (some declared.frames.size) (declared.openFor scope ⟨g.visits, trail, t.kind⟩ x)

def enter (uri : String) (trail : Trail) (scope : Nat) (t : Tree) : Step (Option Nat) :=
  match Fold.declares t.kind with
  | some kind => declare uri trail scope kind t
  | none => pure (some scope)

/-- The children of a node, leaves apart, with their trails, to be entered in a scope. -/
def pending {σ : Type} (trail : Trail) (scope : σ) (t : Tree) : List (Trail × σ × Tree) :=
  (t.children.zipIdx.filter fun x => !x.1.isLeaf).map fun x => (x.2 :: trail, scope, x.1)

theorem stackWeight_pending_lt {σ : Type} (trail : Trail) (scope : σ) (t : Tree) :
    stackWeight (fun x => sizeOf x.2.2) (pending trail scope t) < sizeOf t := by
  have hchildren : t.children.zipIdx.map (·.1) = t.children := List.zipIdx_map_fst 0 t.children
  have hweight := stackWeight_map sizeOf (·.1) t.children.zipIdx
  rw [hchildren] at hweight
  have hle := stackWeight_filter_le (fun x => sizeOf x.1) (fun x => !x.1.isLeaf) t.children.zipIdx
  rw [pending, stackWeight_map]
  cases t with
  | leaf x =>
    simp only [Tree.children, List.zipIdx_nil, List.filter_nil, stackWeight, Tree.leaf.sizeOf_spec]
    omega
  | node k cs =>
    have hlt := stackWeight_sizeOf_lt cs
    simp only [Tree.children] at hweight hle
    simp only [Tree.children, Tree.node.sizeOf_spec]
    omega

/-- Enters the nodes on a stack, and those that they put on it. -/
def run (uri : String) : List (Trail × Nat × Tree) → Registry →
    EStateM.Result DeclarationError Registry Unit
  | [], g => .ok () g
  | (trail, scope, t) :: stack, g =>
    match enter uri trail scope t g with
    | .error e g => .error e g
    | .ok none g => run uri stack g
    | .ok (some inner) g => run uri (pending trail inner t ++ stack) g
termination_by stack => stackWeight (fun x => sizeOf x.2.2) stack
decreasing_by
  · have hlt := stackWeight_pending_lt trail scope t
    simp only [stackWeight]
    omega
  · have hlt := stackWeight_pending_lt trail inner t
    simp only [stackWeight_append, stackWeight]
    omega

/-- Visits a tree. The visit counts, whether or not it succeeds. -/
def visit (g : Registry) (uri : String) (t : Tree) : Option DeclarationError × Registry :=
  match run uri [([], 0, t)] g with
  | .ok () g => (none, { g with visits := g.visits + 1 })
  | .error e g => (some e, { g with visits := g.visits + 1 })

/-- Visits trees in order, each under the address of its document. -/
def visitEach (g : Registry) : List (String × Tree) → List (Option DeclarationError) × Registry
  | [] => ([], g)
  | x :: xs =>
    let first := g.visit x.1 x.2
    let rest := first.2.visitEach xs
    (first.1 :: rest.1, rest.2)

end Registry

end Mykt
