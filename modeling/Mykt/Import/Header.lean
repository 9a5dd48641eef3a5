import Mykt.Tree.Basic

/-!
The import headers of a file and the names that they import.
-/

namespace Mykt

inductive HeaderError where
  | unnamed
  deriving DecidableEq, Repr

def HeaderError.message : HeaderError → String
  | unnamed => "import header without identifier"

namespace Tree

/-- The headers of the first preamble. -/
def importHeaders (t : Tree) : List Tree :=
  match t.child? (.rule .preamble) with
  | some p => p.childrenOfKind (.rule .importHeader)
  | none => []

/-- The dotted name in a header. -/
def importName (header : Tree) : Except HeaderError String :=
  match header.child? (.rule .identifier) with
  | some i => .ok i.text
  | none => .error .unnamed

end Tree

end Mykt
