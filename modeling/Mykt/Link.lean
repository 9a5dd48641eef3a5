import Mykt.Definition
import Mykt.Json

/-!
Links as an editor reads them.
-/

namespace Mykt

def Position.toJson (p : Position) : Json :=
  .object [("line", .number p.line), ("character", .number p.character)]

def Range.toEditorJson (r : Range) : Json :=
  .object [("start", r.start.toJson), ("end", r.stop.toJson)]

def Link.toJson (l : Link) : Json :=
  .object <|
    [("targetUri", .string l.targetUri), ("targetRange", l.targetRange.toEditorJson),
      ("targetSelectionRange", l.targetSelectionRange.toEditorJson)] ++
    match l.originSelectionRange with
    | some r => [("originSelectionRange", r.toEditorJson)]
    | none => []

end Mykt
