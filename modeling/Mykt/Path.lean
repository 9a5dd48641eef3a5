/-!
Paths as names below a root or below the working directory. Written, a path has no empty name, no
`.` and no slash at its end; two slashes at its beginning are kept apart from one.
-/

namespace Mykt

/-- The parts between separators; there is always at least one. -/
def Text.splitOn (separator : Char) : List Char → List (List Char)
  | [] => [[]]
  | c :: cs =>
    if c = separator then [] :: splitOn separator cs
    else
      match splitOn separator cs with
      | part :: parts => (c :: part) :: parts
      | [] => [[c]]

structure Path where
  /-- Slashes at the beginning: none if relative, one, or two. -/
  slashes : Nat
  names : List String
  deriving DecidableEq, Repr

namespace Path

def isName (s : String) : Bool := s ≠ "" && s ≠ "."

def ofString (s : String) : Path where
  slashes :=
    match (s.toList.takeWhile (· = '/')).length with
    | 0 => 0
    | 2 => 2
    | _ => 1
  names := ((Text.splitOn '/' s.toList).map String.ofList).filter isName

def toString (p : Path) : String :=
  if p.slashes = 0 && p.names.isEmpty then "."
  else String.ofList (List.replicate p.slashes '/') ++ "/".intercalate p.names

instance : ToString Path := ⟨toString⟩

def isAbsolute (p : Path) : Bool := p.slashes ≠ 0

/-- A path below another one; an absolute path stands for itself. -/
def append (p q : Path) : Path :=
  if q.isAbsolute then q else ⟨p.slashes, p.names ++ q.names⟩

def parent (p : Path) : Path := ⟨p.slashes, p.names.dropLast⟩

/-- Goes up at each `..` and stays at the root. -/
def settle (names : List String) : List String :=
  names.foldl (fun done n => if n = ".." then done.dropLast else done ++ [n]) []

/-- The absolute path without `..` that a path stands for in a working directory. -/
def normalize (cwd p : Path) : Path :=
  let q := cwd.append p
  ⟨q.slashes, settle q.names⟩

end Path

end Mykt
