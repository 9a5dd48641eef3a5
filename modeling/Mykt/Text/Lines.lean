/-!
Lines of a text. Line feeds alone divide lines for the grammar; the breaks of `isBreak` divide a
message or an edited document.
-/

namespace Mykt.Text

def isBreak (c : Char) : Bool :=
  ['\n', '\r', '\x0b', '\x0c', '\x1c', '\x1d', '\x1e', '\u0085', '\u2028', '\u2029'].contains c

def firstLine (s : String) : String := String.ofList (s.toList.takeWhile (!isBreak ·))

/-- Carriage returns, alone or before a line feed, become line feeds. -/
def unifyNewlines : List Char → List Char
  | '\r' :: '\n' :: cs => '\n' :: unifyNewlines cs
  | '\r' :: cs => '\n' :: unifyNewlines cs
  | c :: cs => c :: unifyNewlines cs
  | [] => []

/-- What follows the last line feed. -/
def lastLine (cs : List Char) : List Char := (cs.reverse.takeWhile (· ≠ '\n')).reverse

/-- The width of a text whose tabs reach to the next multiple of eight; a carriage return begins
the count anew. -/
def tabbedWidth (cs : List Char) : Nat :=
  (cs.foldl (fun (width, column) c =>
    if c = '\t' then (width + (8 - column % 8), column + (8 - column % 8))
    else if c = '\r' || c = '\n' then (width + 1, 0)
    else (width + 1, column + 1)) (0, 0)).1

end Mykt.Text
