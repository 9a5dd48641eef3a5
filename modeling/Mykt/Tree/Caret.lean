import Mykt.Tree.Basic

/-!
The leaf under a caret. A caret touches a token from its first column to just after its last; of
two touched tokens a name is preferred. The search stops at the first token beyond the caret.
-/

namespace Mykt

namespace Token

def touches (t : Token) (character : Int) : Bool :=
  t.column ≤ character && character ≤ t.column + t.text.length

def isName (t : Token) : Bool := t.kind = .terminal .name

end Token

namespace Tree

/-- The leaf kept when another one is touched as well. -/
def preferName (best : Option (Trail × Token)) (x : Trail × Token) : Trail × Token :=
  match best with
  | none => x
  | some b => if !b.2.isName && x.2.isName then x else b

/-- A caret on `line`, counted from one. -/
def caretSearch (line character : Int) :
    Option (Trail × Token) → List (Trail × Token) → Option (Trail × Token)
  | best, [] => best
  | best, x :: xs =>
    if x.2.line < line then caretSearch line character best xs
    else if line < x.2.line then best
    else if x.2.touches character then caretSearch line character (some (preferName best x)) xs
    else if character < x.2.column then best
    else caretSearch line character best xs

/-- The trail and the token of the leaf at a caret, with lines counted from zero. -/
def leafAt (t : Tree) (line character : Int) : Option (Trail × Token) :=
  caretSearch (line + 1) character none (t.leaves [])

end Tree

end Mykt
