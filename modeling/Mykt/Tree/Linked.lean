import Mykt.Linked
import Mykt.Tree.Basic

/-!
Trees as they are read, and the linked nodes that are made from them. Nodes are made and finished
without recursion: a stack holds those whose children are still to be made, and a second pass over
all of them, the last one first, gives each node that has children its first and its last token.
-/

namespace Mykt

/-- A token as it is read, whose column counts from one. -/
def Token.ofRead (label text : String) (line column : Int) : Token :=
  ⟨.ofLabel label, text, line, column - 1⟩

namespace Tree

/-- A tree as it is read, with labels for kinds. -/
inductive Raw where
  | token (label text : String) (line column : Int)
  | rule (label : String) (children : List Raw)
  deriving Repr, Inhabited

/-- What a linked node holds: its kind, the first and the last token below it, and its own token if
it is a leaf. -/
structure Node where
  kind : Kind
  start : Option Token
  stop : Option Token
  token : Option Token
  deriving DecidableEq, Repr

namespace Raw

def children : Raw → List Raw
  | token .. => []
  | rule _ rs => rs

mutual

def tree : Raw → Tree
  | token label text line column => .leaf (.ofRead label text line column)
  | rule label rs => .node (.ofLabel label) (trees rs)

def trees : List Raw → List Tree
  | [] => []
  | r :: rs => r.tree :: trees rs

end

/-- A node before it is finished. -/
def node : Raw → Node
  | token label text line column =>
    let t := Token.ofRead label text line column
    ⟨t.kind, some t, some t, some t⟩
  | rule label _ => ⟨.ofLabel label, none, none, none⟩

theorem trees_eq_map (rs : List Raw) : trees rs = rs.map tree := by
  induction rs with
  | nil => rfl
  | cons r rs ih => simp [trees, ih]

theorem stackWeight_children_lt (r : Raw) : stackWeight sizeOf r.children < sizeOf r := by
  cases r with
  | token label text line column =>
    simp only [children, stackWeight, token.sizeOf_spec]
    omega
  | rule label rs =>
    have := stackWeight_sizeOf_lt rs
    simp only [children, rule.sizeOf_spec]
    omega

end Raw

/-- Makes the children of the nodes on a stack, and theirs. Nodes are told in the order in which
they leave the stack. -/
def grow (a : Linked Node) : List (Nat × Raw) → Linked Node × List Nat
  | [] => (a, [])
  | (n, r) :: stack =>
    let made := a.next r.children.length
    let rest := grow (a.hang n (r.children.map Raw.node)) ((made.zip r.children).reverse ++ stack)
    (rest.1, n :: rest.2)
termination_by stack => stackWeight (fun x => sizeOf x.2) stack
decreasing_by
  have hchildren : ((a.next r.children.length).zip r.children).map (·.2) = r.children :=
    List.map_snd_zip (by simp [Linked.next])
  have hweight := stackWeight_map sizeOf (·.2) ((a.next r.children.length).zip r.children)
  rw [hchildren] at hweight
  have hlt := r.stackWeight_children_lt
  simp only [stackWeight_append, stackWeight_reverse, stackWeight, ← hweight]
  omega

/-- A node that begins and ends where its children do, those without tokens apart. -/
def Node.spanning (children : List Node) (v : Node) : Node :=
  { v with
    start := children.findSome? (·.start)
    stop := children.reverse.findSome? (·.stop) }

def finish (a : Linked Node) (n : Nat) : Linked Node :=
  match a.below n with
  | [] => a
  | c :: cs => a.modify n (.spanning ((c :: cs).filterMap a.value?))

/-- Links a tree below a node, or below none. Its root gets the next number. -/
def link (a : Linked Node) (parent : Option (Fin a.size)) (r : Raw) : Linked Node :=
  let grown := grow (a.plant r.node parent) [(a.size, r)]
  grown.2.reverse.foldl finish grown.1

def tokenAt? (a : Linked Node) (n : Nat) : Option Token := (a.value? n).bind (·.token)

def terminals (a : Linked Node) (n : Nat) : List Nat :=
  (a.walk n).filter fun m => (tokenAt? a m).isSome

/-- The text of a terminal, or the texts of the terminals below a node. -/
def textAt (a : Linked Node) (n : Nat) : String :=
  match tokenAt? a n with
  | some t => t.text
  | none => String.join (((terminals a n).filterMap (tokenAt? a)).map (·.text))

end Tree

end Mykt
