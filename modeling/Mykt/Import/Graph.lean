import Mykt.Import.Header
import Mykt.Import.Target

/-!
Which documents a document imports, by its headers alone: where each of them would lie, and the
address that it would go by.
-/

namespace Mykt.Import

structure Edge where
  path : Path
  uri : String
  deriving DecidableEq, Repr

/-- The documents that the headers of a tree name, in order. Headers without a name lead nowhere. -/
def edges (cwd : Path) (extension uri : String) (t : Tree) : List Edge :=
  match Uri.toPath cwd (Uri.base uri) with
  | .error _ => []
  | .ok directory =>
    t.importHeaders.filterMap fun header =>
      match header.importName with
      | .error _ => none
      | .ok name =>
        let relative := relativePath name extension
        some ⟨target directory relative, Uri.base uri ++ relative⟩

end Mykt.Import
