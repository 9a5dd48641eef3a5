import Mykt.Uri.Host
import Mykt.Uri.Percent

/-!
Addresses of files. An address gives a path on the disk; a path gives the address that an editor
would use for it.
-/

namespace Mykt.Uri

/-- An address without its query and fragment. -/
structure Address where
  scheme : List Char
  host : List Char
  path : List Char
  deriving DecidableEq, Repr

def isLetter (c : Char) : Bool := ('A' ≤ c && c ≤ 'Z') || ('a' ≤ c && c ≤ 'z')

def isSchemePart (c : Char) : Bool :=
  isLetter c || isDecimal c || c = '+' || c = '-' || c = '.'

/-- Blanks and controls before an address do not count, nor do tabs and line ends in it. -/
def clean (cs : List Char) : List Char :=
  (cs.dropWhile (·.toNat ≤ 0x20)).filter fun c => c ≠ '\t' && c ≠ '\r' && c ≠ '\n'

/-- The scheme in small letters, and what follows its colon. -/
def splitScheme (cs : List Char) : List Char × List Char :=
  let scheme := cs.takeWhile isSchemePart
  match scheme.head?, cs.drop scheme.length with
  | some first, ':' :: rest => if isLetter first then (scheme.map Char.toLower, rest) else ([], cs)
  | _, _ => ([], cs)

/-- The host after two slashes, and what follows it. -/
def splitHost : List Char → List Char × List Char
  | '/' :: '/' :: cs => cs.span fun c => c ≠ '/' && c ≠ '?' && c ≠ '#'
  | cs => ([], cs)

/-- Schemes whose last name may carry parameters after a semicolon. -/
def parameterSchemes : List (List Char) :=
  ["", "ftp", "hdl", "prospero", "http", "imap", "https", "shttp", "rtsp", "rtspu", "sip", "sips",
    "mms", "sftp", "tel"].map String.toList

def cutParameters (cs : List Char) : List Char :=
  let last := (cs.reverse.takeWhile (· ≠ '/')).reverse
  cs.take (cs.length - last.length) ++ last.takeWhile (· ≠ ';')

def Address.ofString (s : String) : Except HostError Address := do
  let (scheme, rest) := splitScheme (clean s.toList)
  let (host, rest) := splitHost rest
  checkHost host
  let path := (rest.takeWhile (· ≠ '#')).takeWhile (· ≠ '?')
  return ⟨scheme, host, if parameterSchemes.contains scheme then cutParameters path else path⟩

def fileScheme : List Char := ['f', 'i', 'l', 'e']

/-- A slash or backslash before a drive letter and a colon is dropped. -/
def dropBeforeDrive : List Char → List Char
  | slash :: drive :: ':' :: cs =>
    if (slash = '/' || slash = '\\') && isLetter drive then drive :: ':' :: cs
    else slash :: drive :: ':' :: cs
  | cs => cs

/-- The written path of a file address: the host, unless it is this one, stands before the path
after two slashes. -/
def Address.filePath (a : Address) : List Char :=
  let path := decode a.path
  let located :=
    if a.host ≠ [] && a.host ≠ "localhost".toList then '/' :: '/' :: a.host ++ path else path
  match located with
  | '\\' :: '\\' :: _ => located
  | '/' :: '/' :: _ => located
  | _ => dropBeforeDrive located

/-- The path that a file address or a written path stands for. A written path that is not absolute
is settled in the working directory. -/
def toPath (cwd : Path) (s : String) : Except HostError Path :=
  match s.toList with
  | 'f' :: 'i' :: 'l' :: 'e' :: ':' :: _ => do
    let a ← Address.ofString s
    return .ofString (String.ofList a.filePath)
  | _ =>
    let p := Path.ofString s
    return if p.isAbsolute then p else Path.normalize cwd p

/-- The address of an absolute path. -/
def ofPath (p : Path) : String :=
  String.ofList ("file://".toList ++ encode (toString p).toList)

/-- An address up to and with its last slash; empty if it has none. -/
def base (s : String) : String :=
  String.ofList (s.toList.reverse.dropWhile (· ≠ '/')).reverse

end Mykt.Uri
