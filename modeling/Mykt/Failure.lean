import Mykt.Import.Resolver

/-!
The causes of failure taken together, each with the name under which it is reported.
-/

namespace Mykt

/-- What was left blank on a command line though it was needed. -/
inductive Blank where
  | logLevel
  | extension
  | line
  | character
  deriving DecidableEq, Repr

namespace Blank

def name : Blank → String
  | logLevel => "AttributeError"
  | extension => "TypeError"
  | line | character => "ValueError"

def message : Blank → String
  | logLevel => "'list' object has no attribute 'lower'"
  | extension => "can only concatenate str (not \"list\") to str"
  | line => PositionError.outOfBounds "line" "[]"
  | character => PositionError.outOfBounds "character" "[]"

end Blank

inductive Failure where
  | parse (e : ParseError)
  | position (e : PositionError)
  | range (e : RangeError)
  | declaration (e : DeclarationError)
  | header (e : HeaderError)
  | host (e : Uri.HostError)
  | disk (e : Disk.Error)
  | blank (b : Blank)
  deriving DecidableEq, Repr

namespace Failure

def ofImport : Import.Error → Failure
  | .header e => header e
  | .host e => host e
  | .range e => range e
  | .declaration e => declaration e

def rangeName : RangeError → String
  | .empty _ => "MalformedNode"
  | .position _ => "ValueError"

def diskName : Disk.Error → String
  | .fault .notFound _ => "FileNotFoundError"
  | .fault .alreadyThere _ => "FileExistsError"
  | .fault .notDirectory _ => "NotADirectoryError"
  | .fault .isDirectory _ => "IsADirectoryError"
  | .fault .nameTooLong _ => "OSError"
  | .nul => "ValueError"
  | .decode _ => "UnicodeDecodeError"

def name : Failure → String
  | parse (.character ..) => "UnexpectedCharacters"
  | parse _ => "UnexpectedToken"
  | position _ | header _ | host _ => "ValueError"
  | range e => rangeName e
  | declaration (.range e) => rangeName e
  | declaration (.unnamed _) => "ValueError"
  | disk e => diskName e
  | blank b => b.name

def message : Failure → String
  | parse e => e.message
  | position e => e.message
  | range e => e.message
  | declaration e => e.message
  | header e => e.message
  | host e => e.message
  | disk e => e.message
  | blank b => b.message

end Failure

end Mykt
