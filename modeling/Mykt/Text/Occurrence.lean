import Mykt.Position

/-!
Finding a text within a text by its occurrences, which may overlap. Each search begins one character
behind the match before it.
-/

namespace Mykt.Text

inductive OccurrenceError where
  | missing
  | position (e : PositionError)
  deriving DecidableEq, Repr

def OccurrenceError.message : OccurrenceError → String
  | missing => "substring not found"
  | position e => e.message

/-- The first offset at which a needle stands; the end of the text is one too. -/
def indexOf? (needle : List Char) : List Char → Option Nat
  | [] => if needle = [] then some 0 else none
  | c :: cs =>
    if needle.isPrefixOf (c :: cs) then some 0 else (indexOf? needle cs).map (· + 1)

/-- The first offset from `start` on at which a needle stands. -/
def indexFrom? (source needle : List Char) (start : Nat) : Option Nat :=
  if start ≤ source.length then (indexOf? needle (source.drop start)).map (start + ·) else none

/-- Searches so many times, each time behind the last match. -/
def searchFrom? (source needle : List Char) : Nat → Int → Option Int
  | 0, index => some index
  | n + 1, index =>
    match indexFrom? source needle (index + 1).toNat with
    | some i => searchFrom? source needle n i
    | none => none

/-- What stands before an index; one below zero counts from the end. -/
def before (source : List Char) (index : Int) : List Char :=
  source.take (if index < 0 then source.length + index else index).toNat

/-- The offset of the last line feed; -1 if there is none. -/
def lastNewline (cs : List Char) : Int :=
  match cs.reverse.findIdx? (· = '\n') with
  | some i => cs.length - 1 - i
  | none => -1

/-- The position of an occurrence, counted from zero. Below zero none is looked for, and the index
is -1. -/
def positionOf (source needle : String) (occurrence : Int) :
    Except OccurrenceError Position :=
  match searchFrom? source.toList needle.toList (occurrence + 1).toNat (-1) with
  | none => .error .missing
  | some index =>
    let text := before source.toList index
    (Position.ofInts (text.count '\n') (index - (lastNewline text + 1))).mapError .position

def rangeOf (source needle : String) (occurrence : Int) : Except OccurrenceError Range := do
  let start ← positionOf source needle occurrence
  let stop ← (Position.ofInts start.line (start.character + needle.length)).mapError .position
  return ⟨start, stop⟩

end Mykt.Text
