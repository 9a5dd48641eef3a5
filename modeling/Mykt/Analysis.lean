import Mykt.Definition
import Mykt.Import.Resolver
import Mykt.Settings

/-!
The analysis of a document: its tree, the table of its declarations and those of the files it
imports, and what is wrong with it. Imports are folded first.
-/

namespace Mykt

structure Analysis where
  uri : String
  source : String
  /-- Missing if the text is not a file of the language. -/
  tree : Option Tree
  table : SymbolTable
  diagnostics : List Diagnostic
  deriving Repr

namespace Analysis

/-- The main tree is visited last. -/
def document (a : Analysis) : Nat := a.table.visits - 1

def definitionAt (a : Analysis) (p : Position) : Except RangeError (Option Definition) :=
  match a.tree with
  | some t => a.table.definitionAt a.document t p
  | none => .ok none

def parseDiagnostic (uri : String) (e : ParseError) : Diagnostic where
  message := "syntax error: " ++ Text.firstLine e.message
  code := some "syntax"
  phase := some "parser"
  span := { file := some uri, line := some (e.location.1 - 1), column := some (e.location.2 - 1) }

def failedEvent (uri : String) (e : ParseError) : Event :=
  ⟨.info, .analysis, "parse of " ++ uri ++ " failed: " ++ e.message⟩

def doneEvent (uri : String) (table : SymbolTable) : Event :=
  ⟨.debug, .analysis, "analyzed " ++ uri ++ ": " ++ toString table.scopes.length ++ " scopes"⟩

/-- Folds the imports of a document and then the document itself. -/
def foldDocument (o : Import.Options) (uri : String) (t : Tree) : Import.Step Unit := do
  Import.markVisited o.disk.cwd uri
  Import.resolve o t.importHeaders uri
  Import.Session.visit uri t

/-- The analysis or what prevents it, with the events on the way. -/
def run (d : Disk) (settings : Settings) (uri source : String) :
    List Event × Except Import.Error Analysis :=
  match parse source with
  | .error e => ([failedEvent uri e], .ok ⟨uri, source, none, .empty, [parseDiagnostic uri e]⟩)
  | .ok t =>
    let o : Import.Options := ⟨d, settings.fileExtension, settings.followTransitiveImports⟩
    match foldDocument o uri t .start with
    | .error e s => (s.fold.events, .error e)
    | .ok () s =>
      (s.fold.events ++ [doneEvent uri s.fold.table],
        .ok ⟨uri, source, some t, s.fold.table, s.diagnostics⟩)

end Analysis

end Mykt
