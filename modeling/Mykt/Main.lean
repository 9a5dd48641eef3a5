import Mykt.Command.Run
import Mykt.Import.Graph

/-!
The program. The file that the arguments name is taken from the file system together with the files
that it imports; the run on them is then told on the standard streams.
-/

namespace Mykt.Main

/-- Takes what the file system has at a place. -/
def fetchPlace (d : Disk) (place : List String) : IO Disk := do
  let there := (← IO.currentDir) / toString (⟨1, place⟩ : Path)
  if ← there.isDir then
    return { d with entries := Disk.put place .directory d.entries }
  else if ← there.pathExists then
    let bytes ← IO.FS.readBinFile there
    return { d with entries := Disk.put place (.file bytes.toList) d.entries }
  else
    return d

/-- Takes every place on the way to what a path stands for. -/
def fetch (d : Disk) (p : Path) : IO Disk :=
  let names := (d.cwd.append p).names
  (List.range (names.length + 1)).foldlM
    (fun d n => fetchPlace d (Path.settle (names.take n))) d

/-- Takes documents with all that they import. -/
partial def fetchAll (extension : String) (d : Disk) (done : List Path) :
    List Import.Edge → IO Disk
  | [] => return d
  | e :: es => do
    if done.contains e.path then fetchAll extension d done es
    else
      let d ← fetch d e.path
      let next := match Import.load d e.path with
        | .ok t => Import.edges d.cwd extension e.uri t
        | .error _ => []
      fetchAll extension d (e.path :: done) (next ++ es)

/-- The disk that a command line needs. -/
def diskFor (arguments : List String) : IO Disk := do
  let d : Disk := ⟨.ofString (← IO.currentDir).toString, []⟩
  match Command.Invocation.ofArguments arguments with
  | .error _ => return d
  | .ok ⟨choices, task⟩ =>
    match task.file? with
    | none => return d
    | some file =>
      fetchAll choices.settings.fileExtension d [] [⟨file, Uri.ofPath (Command.realPath d file)⟩]

def tell (o : Command.Outcome) : IO UInt32 := do
  for e in o.events do
    IO.eprintln (e.level.label ++ " " ++ e.source.label ++ ": " ++ e.message)
  if o.started.isSome then IO.eprintln "no transport to serve over"
  IO.print o.output
  IO.eprint o.errors
  match o.ending with
  | .status n => return n.toUInt32
  | .arguments n => return n.toUInt32
  | .failed f => do
    IO.eprintln (f.name ++ ": " ++ f.message)
    return 1

end Mykt.Main

def main (arguments : List String) : IO UInt32 := do
  let d ← Mykt.Main.diskFor arguments
  Mykt.Main.tell (Mykt.Command.run d Mykt.defaultLogLevel arguments)
