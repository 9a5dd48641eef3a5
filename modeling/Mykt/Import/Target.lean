import Mykt.Uri.Address

/-!
What an import names: a file below the directory of the importing document, one directory for each
name but the last.
-/

namespace Mykt.Import

/-- The written path of an imported name, with slashes for the dots. -/
def relativePath (name extension : String) : String :=
  String.ofList (name.toList.map fun c => if c = '.' then '/' else c) ++ extension

/-- The path of an imported file below a directory. -/
def target (directory : Path) (relative : String) : Path :=
  ⟨directory.slashes, directory.names ++
    ((Text.splitOn '/' relative.toList).map String.ofList).filter Path.isName⟩

end Mykt.Import
