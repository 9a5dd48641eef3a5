import Mykt.Scope.Basic

/-!
Scopes as printed values: the kind of the anchor, the symbols, and the inner scopes.
-/

namespace Mykt

def Range.toJson (r : Range) : Json :=
  .array [.number r.start.line, .number r.start.character, .number r.stop.line,
    .number r.stop.character]

def Symbol.toJson (s : Symbol) : Json :=
  let place := match s.location with
    | some l => [("uri", .string l.uri), ("range", l.range.toJson),
        ("name_range", l.nameRange.toJson)]
    | none => []
  .object ([("name", .string s.name), ("kind", .string s.kind.label)] ++ place)

def Anchor.toJson : Option Anchor → Json
  | some a => .string a.kind.label
  | none => .null

namespace Scope

mutual

def toJson : Scope → Json
  | mk a ss is =>
    .object [("anchor", Anchor.toJson a), ("symbols", .array (ss.map Symbol.toJson)),
      ("scopes", .array (toJsonOf is))]

def toJsonOf : List Scope → List Json
  | [] => []
  | s :: ss => s.toJson :: toJsonOf ss

end

end Scope

def SymbolTable.dump (t : SymbolTable) : Json := t.root.toJson

end Mykt
