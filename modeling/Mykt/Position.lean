import Mykt.Tree.Basic

/-!
Positions and ranges of an editor: lines and characters from zero, ends excluded. A coordinate is
at most `Position.limit`.
-/

namespace Mykt

structure Position where
  line : Nat
  character : Nat
  deriving DecidableEq, Repr

inductive PositionError where
  | line (n : Int)
  | character (n : Int)
  deriving DecidableEq, Repr

namespace Position

def limit : Nat := 2147483647

def inBounds (n : Int) : Bool := 0 ≤ n && n ≤ limit

/-- The line is looked at first. -/
def ofInts (line character : Int) : Except PositionError Position :=
  if !inBounds line then .error (.line line)
  else if !inBounds character then .error (.character character)
  else .ok ⟨line.toNat, character.toNat⟩

end Position

/-- The text for a coordinate that is not one, with what was written for it. -/
def PositionError.outOfBounds (coordinate written : String) : String :=
  "Position." ++ coordinate ++ " should be in range [0:" ++ toString Position.limit ++
    "], but was " ++ written ++ "."

def PositionError.message : PositionError → String
  | line n => outOfBounds "line" (toString n)
  | character n => outOfBounds "character" (toString n)

structure Range where
  start : Position
  stop : Position
  deriving DecidableEq, Repr

/-- The start is looked at before the end. -/
def Range.ofInts (startLine startCharacter stopLine stopCharacter : Int) :
    Except PositionError Range := do
  let start ← Position.ofInts startLine startCharacter
  let stop ← Position.ofInts stopLine stopCharacter
  return ⟨start, stop⟩

inductive RangeError where
  /-- A tree without tokens is nowhere. -/
  | empty (kind : Kind)
  | position (e : PositionError)
  deriving DecidableEq, Repr

def RangeError.message : RangeError → String
  | empty k => "syntax node '" ++ k.label ++ "' has no start/stop token"
  | position e => e.message

/-- From the start of one token to the end of another. -/
def Range.ofTokens (first last : Token) : Except PositionError Range :=
  Range.ofInts (first.line - 1) first.column (last.line - 1) (last.column + last.text.length)

def Tree.range (t : Tree) : Except RangeError Range :=
  match t.first?, t.last? with
  | some first, some last => (Range.ofTokens first last).mapError .position
  | _, _ => .error (.empty t.kind)

end Mykt
