import Mykt.Path
import Mykt.Text.Quoted

/-!
Hosts. In brackets stands an address of version six, or one of a version to come, with only a user
before them and only a colon after them; no character of a host may stand for a text that holds a
separator.
-/

namespace Mykt.Uri

inductive HostError where
  /-- One bracket without the other, or a text beside them. -/
  | brackets
  | future
  | versionFour
  | unknown (host : String)
  | disguised (host : String)
  deriving DecidableEq, Repr

def HostError.message : HostError → String
  | brackets => "Invalid IPv6 URL"
  | future => "IPvFuture address is invalid"
  | versionFour => "An IPv4 address cannot be in brackets"
  | unknown h => Text.quoted h ++ " does not appear to be an IPv4 or IPv6 address"
  | disguised h => "netloc '" ++ h ++ "' contains invalid characters under NFKC normalization"

def isDecimal (c : Char) : Bool := '0' ≤ c && c ≤ '9'

def isHex (c : Char) : Bool :=
  isDecimal c || ('a' ≤ c && c ≤ 'f') || ('A' ≤ c && c ≤ 'F')

def decimalValue (cs : List Char) : Nat :=
  cs.foldl (fun n c => n * 10 + (c.toNat - '0'.toNat)) 0

/-- At most three digits, no leading zero, at most 255. -/
def isOctet (cs : List Char) : Bool :=
  cs ≠ [] && cs.all isDecimal && cs.length ≤ 3 && (cs = ['0'] || cs.head? ≠ some '0') &&
    decimalValue cs ≤ 255

def isVersionFour (cs : List Char) : Bool :=
  let octets := Text.splitOn '.' cs
  octets.length = 4 && octets.all isOctet

def isGroup (cs : List Char) : Bool := cs.length ≤ 4 && cs.all isHex

/-- Groups between colons: eight of them, or fewer with one gap, which may stand at an end. -/
def isGroups (groups : List (List Char)) : Bool :=
  let within := (groups.drop 1).dropLast
  let gap := within.takeWhile (· ≠ []) |>.length
  if groups.length < 3 || 9 < groups.length then false
  else if gap = within.length then
    groups.length = 8 && groups.all fun g => g ≠ [] && isGroup g
  else
    let high := groups.take (gap + 1)
    let low := groups.drop (gap + 2)
    let side (gs : List (List Char)) (outer : Option (List Char)) : Option (List (List Char)) :=
      if outer = some [] then (if gs.length = 1 then some [] else none) else some gs
    match side high high.head?, side low low.getLast? with
    | some hs, some ls =>
      hs.length + ls.length < 8 && (hs ++ ls).all fun g => g ≠ [] && isGroup g
    | _, _ => false

/-- A last part with dots counts for two groups; what follows a percent sign is a zone. -/
def isVersionSix (cs : List Char) : Bool :=
  let address := cs.takeWhile (· ≠ '%')
  let zone := cs.dropWhile (· ≠ '%')
  let zoneFits := zone = [] || (1 < zone.length && !(zone.drop 1).contains '%')
  let parts := Text.splitOn ':' address
  let last := parts.getLast?.getD []
  let groups :=
    if last.contains '.' then
      if isVersionFour last then parts.dropLast ++ [['0'], ['0']] else []
    else parts
  zoneFits && 3 ≤ parts.length && !cs.contains '/' && isGroups groups

/-- The letter v, hexadecimal digits, a dot, and at least one more character. -/
def isFuture (cs : List Char) : Bool :=
  let rest := (cs.drop 1).dropWhile isHex
  ((cs.drop 1).takeWhile isHex) ≠ [] && rest.head? = some '.' && 1 < rest.length &&
    !(rest.drop 1).contains '\n'

/-- A host with brackets is an address. -/
def checkAddress (address : List Char) : Except HostError Unit :=
  if address.head? = some 'v' then
    if isFuture address then .ok () else .error .future
  else if isVersionFour address then .error .versionFour
  else if isVersionSix address then .ok ()
  else .error (.unknown (String.ofList address))

/-- What stands after the last at sign. -/
def withoutUser (host : List Char) : List Char := (host.reverse.takeWhile (· ≠ '@')).reverse

/-- The address of a host with brackets: it stands in them, with nothing before them and a colon, if
anything, after them. Brackets of the user leave an address that ends at the first colon. -/
def addressIn (host : List Char) : Except HostError (List Char) :=
  let place := withoutUser host
  match place.dropWhile (· ≠ '[') with
  | [] => .ok (place.takeWhile (· ≠ ':'))
  | _ :: inside =>
    let after := (inside.dropWhile (· ≠ ']')).drop 1
    if place.head? = some '[' && (after = [] || after.head? = some ':') then
      .ok (inside.takeWhile (· ≠ ']'))
    else .error .brackets

/-- Characters beyond ASCII whose compatible writing holds a slash, a question mark, a number sign,
an at sign or a colon. -/
def disguisedSeparators : List Nat :=
  [0x2047, 0x2048, 0x2049, 0x2100, 0x2101, 0x2105, 0x2106, 0x2a74, 0xfe13, 0xfe16, 0xfe55, 0xfe56,
    0xfe5f, 0xfe6b, 0xff03, 0xff0f, 0xff1a, 0xff1f, 0xff20]

/-- A host has no bracket without the other, and its brackets are looked at first. -/
def checkHost (host : List Char) : Except HostError Unit := do
  if host.contains '[' != host.contains ']' then .error .brackets
  if host.contains '[' then
    let address ← addressIn host
    checkAddress address
  if host.any fun c => disguisedSeparators.contains c.toNat then
    .error (.disguised (String.ofList host))

end Mykt.Uri
