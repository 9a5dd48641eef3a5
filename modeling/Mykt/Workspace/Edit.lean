import Mykt.Position
import Mykt.Text.Lines

/-!
Edits of an open document. An edit names a range whose characters are counted in UTF-16 units, and
lines end at any line break.
-/

namespace Mykt

namespace Text

/-- UTF-16 units of a character. -/
def units16 (c : Char) : Nat := if c.toNat < 0x10000 then 1 else 2

def unitCount : List Char → Nat
  | [] => 0
  | c :: cs => units16 c + unitCount cs

/-- Lines with the breaks that end them. -/
def brokenLines : List Char → List (List Char)
  | [] => []
  | '\r' :: '\n' :: cs => ['\r', '\n'] :: brokenLines cs
  | c :: cs =>
    if isBreak c then [c] :: brokenLines cs
    else
      match brokenLines cs with
      | l :: ls => (c :: l) :: ls
      | [] => [[c]]

theorem flatten_brokenLines (cs : List Char) : (brokenLines cs).flatten = cs := by
  fun_induction brokenLines cs with
  | case1 => rfl
  | case2 cs ih => simp [ih]
  | case3 c cs _ _ ih => simp [ih]
  | case4 c cs _ _ l ls h ih =>
    rw [h] at ih
    simpa using ih
  | case5 c cs _ _ h ih =>
    rw [h] at ih
    simpa using ih

/-- How many characters it takes to reach a number of units. -/
def charactersFor : Nat → List Char → Nat
  | 0, _ => 0
  | _ + 1, [] => 0
  | n + 1, c :: cs => 1 + charactersFor (n + 1 - units16 c) cs

/-- Carriage returns before line feeds do not count. -/
def withoutReturns : List Char → List Char
  | '\r' :: '\n' :: cs => '\n' :: withoutReturns cs
  | c :: cs => c :: withoutReturns cs
  | [] => []

end Text

inductive Edit where
  | whole (text : String)
  | within (range : Range) (text : String)
  deriving DecidableEq, Repr

namespace Edit

/-- Line and character, in characters, of an editor's position. Beyond the last line it is the end
of that line, and beyond the end of a line it is just before its last unit. -/
def place (lines : List (List Char)) (p : Position) : Nat × Nat :=
  match lines[p.line]? with
  | none => (lines.length - 1, Text.unitCount (lines.getLast?.getD []))
  | some line =>
    let shown := Text.withoutReturns line
    let width := Text.unitCount shown
    let target := if width < p.character then width - 1 else p.character
    (p.line, Text.charactersFor target shown)

/-- What becomes of a line when a text is put in place of what is between two places. -/
def spliceLine (start stop : Nat × Nat) (text : List Char) (index : Nat) (line : List Char) :
    List Char :=
  if index < start.1 || stop.1 < index then line
  else
    (if index = start.1 then line.take start.2 ++ text else []) ++
      (if index = stop.1 then line.drop stop.2 else [])

def spliceLines (start stop : Nat × Nat) (text : List Char) (index : Nat) :
    List (List Char) → List Char
  | [] => []
  | l :: ls => spliceLine start stop text index l ++ spliceLines start stop text (index + 1) ls

def apply (source : String) : Edit → String
  | whole text => text
  | within range text =>
    match Text.brokenLines source.toList with
    | [] => source ++ text
    | l :: ls =>
      let lines := l :: ls
      String.ofList
        (spliceLines (place lines range.start) (place lines range.stop) text.toList 0 lines)

end Edit

end Mykt
