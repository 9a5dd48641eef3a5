import Mykt.Token.Basic
import Mykt.Trail

/-!
Trees of tokens. A leaf holds a token and a node holds a kind with its children. Main statements:
the first and the last token of a tree are those of its token list, and a walk and the trails of
leaves meet the same tokens in the same order.
-/

namespace Mykt

inductive Tree where
  | leaf (token : Token)
  | node (kind : Kind) (children : List Tree)
  deriving Repr, Inhabited

namespace Tree

def kind : Tree → Kind
  | leaf t => t.kind
  | node k _ => k

def children : Tree → List Tree
  | leaf _ => []
  | node _ cs => cs

def token? : Tree → Option Token
  | leaf t => some t
  | node _ _ => none

def isLeaf : Tree → Bool
  | leaf _ => true
  | node _ _ => false

mutual

/-- Tokens from left to right. -/
def tokens : Tree → List Token
  | leaf t => [t]
  | node _ cs => tokensOf cs

def tokensOf : List Tree → List Token
  | [] => []
  | t :: ts => t.tokens ++ tokensOf ts

end

mutual

/-- The tree and its subtrees, each before its children, with their depths. -/
def outline (depth : Nat) : Tree → List (Nat × Tree)
  | leaf t => [(depth, leaf t)]
  | node k cs => (depth, node k cs) :: outlineOf (depth + 1) cs

def outlineOf (depth : Nat) : List Tree → List (Nat × Tree)
  | [] => []
  | t :: ts => t.outline depth ++ outlineOf depth ts

end

def walk (t : Tree) : List Tree := (t.outline 0).map (·.2)

mutual

def first? : Tree → Option Token
  | leaf t => some t
  | node _ cs => firstOf? cs

def firstOf? : List Tree → Option Token
  | [] => none
  | t :: ts => t.first?.or (firstOf? ts)

end

mutual

def last? : Tree → Option Token
  | leaf t => some t
  | node _ cs => lastOf? cs

def lastOf? : List Tree → Option Token
  | [] => none
  | t :: ts => (lastOf? ts).or t.last?

end

/-- The texts of the tokens, one after the other. -/
def text (t : Tree) : String := String.join (t.tokens.map (·.text))

def child? (t : Tree) (k : Kind) : Option Tree := t.children.find? (·.kind = k)

def childrenOfKind (t : Tree) (k : Kind) : List Tree := t.children.filter (·.kind = k)

mutual

/-- Tokens from left to right with the trails of their leaves. -/
def leaves (trail : Trail) : Tree → List (Trail × Token)
  | leaf t => [(trail, t)]
  | node _ cs => leavesOf trail 0 cs

def leavesOf (trail : Trail) (index : Nat) : List Tree → List (Trail × Token)
  | [] => []
  | t :: ts => t.leaves (index :: trail) ++ leavesOf trail (index + 1) ts

end

/-- Goes down by child indexes, the root's first. -/
def descend (t : Tree) : List Nat → Option Tree
  | [] => some t
  | i :: is => t.children[i]?.bind (·.descend is)

def at? (t : Tree) (trail : Trail) : Option Tree := t.descend trail.reverse

/-- The trees on the way from the subtree at a trail, itself first, up to the whole tree. -/
def ancestors (t : Tree) (trail : Trail) : List Tree := (Trail.upward trail).filterMap t.at?

mutual

theorem first?_eq (t : Tree) : t.first? = t.tokens.head? := by
  cases t with
  | leaf t => rfl
  | node k cs => simpa [first?, tokens] using firstOf?_eq cs

theorem firstOf?_eq (ts : List Tree) : firstOf? ts = (tokensOf ts).head? := by
  cases ts with
  | nil => rfl
  | cons t ts => simp [firstOf?, tokensOf, first?_eq t, firstOf?_eq ts, List.head?_append]

end

mutual

theorem last?_eq (t : Tree) : t.last? = t.tokens.getLast? := by
  cases t with
  | leaf t => rfl
  | node k cs => simpa [last?, tokens] using lastOf?_eq cs

theorem lastOf?_eq (ts : List Tree) : lastOf? ts = (tokensOf ts).getLast? := by
  cases ts with
  | nil => rfl
  | cons t ts => simp [lastOf?, tokensOf, last?_eq t, lastOf?_eq ts, List.getLast?_append]

end

mutual

theorem filterMap_outline (d : Nat) (t : Tree) :
    (t.outline d).filterMap (·.2.token?) = t.tokens := by
  cases t with
  | leaf t => rfl
  | node k cs => simpa [outline, tokens, token?] using filterMap_outlineOf (d + 1) cs

theorem filterMap_outlineOf (d : Nat) (ts : List Tree) :
    (outlineOf d ts).filterMap (·.2.token?) = tokensOf ts := by
  cases ts with
  | nil => rfl
  | cons t ts => simp [outlineOf, tokensOf, filterMap_outline d t, filterMap_outlineOf d ts]

end

mutual

theorem map_leaves (trail : Trail) (t : Tree) : (t.leaves trail).map (·.2) = t.tokens := by
  cases t with
  | leaf t => rfl
  | node k cs => simpa [leaves, tokens] using map_leavesOf trail 0 cs

theorem map_leavesOf (trail : Trail) (i : Nat) (ts : List Tree) :
    (leavesOf trail i ts).map (·.2) = tokensOf ts := by
  cases ts with
  | nil => rfl
  | cons t ts => simp [leavesOf, tokensOf, map_leaves (i :: trail) t, map_leavesOf trail (i + 1) ts]

end

theorem filterMap_walk (t : Tree) : t.walk.filterMap token? = t.tokens := by
  simpa [walk, List.filterMap_map, Function.comp_def] using filterMap_outline 0 t

end Tree

end Mykt
