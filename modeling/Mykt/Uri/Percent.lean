import Mykt.Text.Utf8

/-!
Percent escapes of a file's name in an address.
-/

namespace Mykt.Uri

def hexValue? (c : Char) : Option Nat :=
  if '0' ≤ c && c ≤ '9' then some (c.toNat - '0'.toNat)
  else if 'a' ≤ c && c ≤ 'f' then some (c.toNat - 'a'.toNat + 10)
  else if 'A' ≤ c && c ≤ 'F' then some (c.toNat - 'A'.toNat + 10)
  else none

def escapedByte? (a b : Char) : Option UInt8 :=
  match hexValue? a, hexValue? b with
  | some m, some n => some (UInt8.ofNat (m * 16 + n))
  | _, _ => none

/-- The bytes of a run of ASCII characters; an escape that is none stays as it is. -/
def asciiBytes : List Char → List UInt8
  | '%' :: a :: b :: cs =>
    match escapedByte? a b with
    | some byte => byte :: asciiBytes cs
    | none => '%'.toUInt8 :: asciiBytes (a :: b :: cs)
  | c :: cs => c.toUInt8 :: asciiBytes cs
  | [] => []

def isAscii (c : Char) : Bool := c.toNat < 0x80

/-- Decodes the runs of ASCII characters, at most `n` of them, each by itself. -/
def decodeRuns : Nat → List Char → List Char
  | 0, cs => cs
  | n + 1, cs =>
    match cs.dropWhile isAscii with
    | [] => Text.Utf8.repair (asciiBytes cs)
    | c :: rest =>
      Text.Utf8.repair (asciiBytes (cs.takeWhile isAscii)) ++ c :: decodeRuns n rest

def decode (cs : List Char) : List Char := decodeRuns (cs.length + 1) cs

def isUnreserved (c : Char) : Bool :=
  ('A' ≤ c && c ≤ 'Z') || ('a' ≤ c && c ≤ 'z') || ('0' ≤ c && c ≤ '9') ||
    c = '_' || c = '.' || c = '-' || c = '~'

def hexUpper (n : Nat) : Char := "0123456789ABCDEF".toList.getD n '0'

def escapeByte (b : UInt8) : List Char := ['%', hexUpper (b.toNat / 16), hexUpper (b.toNat % 16)]

/-- Escapes all bytes but those of unreserved characters and of slashes. -/
def encode (cs : List Char) : List Char :=
  cs.flatMap fun c =>
    if isUnreserved c || c = '/' then [c] else (Text.Utf8.encode [c]).flatMap escapeByte

end Mykt.Uri
