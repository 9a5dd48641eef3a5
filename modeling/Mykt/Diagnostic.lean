import Mykt.Position

/-!
Spans, and diagnostics at spans. A span may lack any of its parts.
-/

namespace Mykt

structure Span where
  file : Option String := none
  line : Option Int := none
  column : Option Int := none
  endLine : Option Int := none
  endColumn : Option Int := none
  deriving DecidableEq, Repr

namespace Span

def ofRange (file : Option String) : Option Range → Span
  | none => { file }
  | some r => ⟨file, some r.start.line, some r.start.character, some r.stop.line,
      some r.stop.character⟩

/-- A span without line or column is no range; one without an end is empty. -/
def range (s : Span) : Except PositionError (Option Range) :=
  match s.line, s.column with
  | some line, some column =>
    (Range.ofInts line column (s.endLine.getD line) (s.endColumn.getD column)).map some
  | _, _ => .ok none

/-- File, line and column, with numbers from one. -/
def short (s : Span) : String :=
  let file := match s.file with
    | none | some "" => "<unknown>"
    | some f => f
  match s.line with
  | none => file
  | some line => file ++ ":" ++ toString (line + 1) ++ ":" ++ toString (s.column.getD 0 + 1)

end Span

structure Diagnostic where
  message : String
  code : Option String := none
  /-- The part of the program that found it. -/
  phase : Option String := none
  severity : String := "error"
  span : Span := {}
  notes : List String := []
  deriving DecidableEq, Repr

namespace Diagnostic

/-- The type of an editor's message: one for errors, two for warnings, three for the rest. -/
def messageType (d : Diagnostic) : Nat :=
  if d.severity = "error" then 1 else if d.severity = "warning" then 2 else 3

def format (d : Diagnostic) : String :=
  d.span.short ++ ": " ++ d.severity ++ ": " ++ d.message ++
    String.join (d.notes.map ("\n  note: " ++ ·))

end Diagnostic

end Mykt
