import Mykt.Token.Lexer
import Mykt.Text.Lines
import Mykt.Text.Quoted

/-!
Why a text is not a file of the language, and how that is told.
-/

namespace Mykt

/-- The text around a character: what stands before it and from it on, in its line. -/
structure Surroundings where
  before : List Char
  after : List Char
  deriving DecidableEq, Repr

namespace Surroundings

/-- At most `reach` characters are shown on either side. -/
def reach : Nat := 40

def ofOffset (cs : List Char) (offset : Nat) : Surroundings where
  before := Text.lastLine ((cs.take offset).drop (offset - reach))
  after := ((cs.drop offset).take reach).takeWhile (· ≠ '\n')

/-- The line and a mark below the character. -/
def render (s : Surroundings) : String :=
  String.ofList (s.before ++ s.after ++ '\n' ::
    (List.replicate (Text.tabbedWidth s.before) ' ' ++ ['^', '\n']))

end Surroundings

inductive ParseError where
  | token (found : Token)
  /-- The text ends too early, after its last token. -/
  | ending (last : Option Token)
  /-- A character that begins nothing. -/
  | character (c : Char) (place : Place) (around : Surroundings) (previous : Option Token)
  deriving DecidableEq, Repr

namespace ParseError

def renderToken (kind text : String) : String :=
  "Token(" ++ Text.quoted kind ++ ", " ++ Text.quoted text ++ ")"

/-- Line and column, both from one. -/
def location : ParseError → Int × Int
  | token t => (t.line, t.column + 1)
  | ending (some t) => (t.line, t.column + 1)
  | ending none => (1, 1)
  | character _ p _ _ => (p.line + 1, p.column + 1)

def unexpected (token : String) (location : Int × Int) : String :=
  "Unexpected token " ++ token ++ " at line " ++ toString location.1 ++ ", column " ++
    toString location.2 ++ ".\n"

def message (e : ParseError) : String :=
  match e with
  | token t => unexpected (renderToken t.kind.label t.text) e.location
  | ending _ => unexpected (renderToken "$END" "") e.location
  | character c _ around previous =>
    let told := "No terminal matches '" ++ c.toString ++
      "' in the current parser context, at line " ++ toString e.location.1 ++ " col " ++
      toString e.location.2 ++ "\n\n" ++ around.render
    match previous with
    | some t => told ++ "\nPrevious tokens: " ++ renderToken t.kind.label t.text ++ "\n"
    | none => told

end ParseError

end Mykt
