import Mykt.Text.Quoted

/-!
Texts as bytes. Bytes that are no text are found with the place and the reason; the part that is at
fault reaches as far as the bytes could still have begun a character.
-/

namespace Mykt.Text.Utf8

inductive Fault where
  | start
  | continuation
  | ending
  deriving DecidableEq, Repr

def Fault.reason : Fault → String
  | start => "invalid start byte"
  | continuation => "invalid continuation byte"
  | ending => "unexpected end of data"

/-- Bytes that are no text: the first of them, where it stands, and how many there are. -/
structure DecodeError where
  byte : UInt8
  position : Nat
  width : Nat
  fault : Fault
  deriving DecidableEq, Repr

def DecodeError.message (e : DecodeError) : String :=
  let place :=
    if e.width = 1 then
      "byte 0x" ++ String.ofList (hex 2 e.byte.toNat) ++ " in position " ++ toString e.position
    else
      "bytes in position " ++ toString e.position ++ "-" ++ toString (e.position + e.width - 1)
  "'utf-8' codec can't decode " ++ place ++ ": " ++ e.fault.reason

def encode (cs : List Char) : List UInt8 := cs.flatMap String.utf8EncodeChar

def isContinuation (b : UInt8) : Bool := 0x80 ≤ b && b < 0xc0

/-- How many bytes a character takes that begins with a byte; zero if none does. -/
def widthOf (b : UInt8) : Nat :=
  if b < 0x80 then 1
  else if b < 0xc2 then 0
  else if b < 0xe0 then 2
  else if b < 0xf0 then 3
  else if b < 0xf5 then 4
  else 0

/-- Whether a second byte may follow the first: overlong forms, surrogates and code points beyond
the last one are refused here. -/
def secondFits (first second : UInt8) : Bool :=
  isContinuation second &&
    !(first = 0xe0 && second < 0xa0) && !(first = 0xed && 0xa0 ≤ second) &&
    !(first = 0xf0 && second < 0x90) && !(first = 0xf4 && 0x90 ≤ second)

/-- The leading bytes of a character of a given width that are in order, at least one. -/
def goodBytes (width : Nat) : List UInt8 → Nat
  | first :: second :: rest =>
    if 2 ≤ width && secondFits first second then
      2 + ((rest.take (width - 2)).takeWhile isContinuation).length
    else 1
  | _ => 1

def codePoint (first : UInt8) (rest : List UInt8) : Nat :=
  let lead :=
    if first < 0x80 then first.toNat
    else if first < 0xe0 then first.toNat % 0x20
    else if first < 0xf0 then first.toNat % 0x10
    else first.toNat % 0x08
  rest.foldl (fun n b => n * 0x40 + b.toNat % 0x40) lead

/-- What stands at the head of some bytes: a character and its width, or a fault and its width. -/
def next (first : UInt8) (rest : List UInt8) : Except (Fault × Nat) (Char × Nat) :=
  let width := widthOf first
  let good := goodBytes width (first :: rest)
  if width = 0 then .error (.start, 1)
  else if good = width then .ok (Char.ofNat (codePoint first (rest.take (width - 1))), width)
  else if good = rest.length + 1 then .error (.ending, good)
  else .error (.continuation, good)

/-- Decodes at most `n` characters, counting bytes from `position`. -/
def decodeFrom : Nat → Nat → List UInt8 → Except DecodeError (List Char)
  | _, _, [] => .ok []
  | 0, _, _ :: _ => .ok []
  | n + 1, position, first :: rest =>
    match next first rest with
    | .error (fault, width) => .error ⟨first, position, width, fault⟩
    | .ok (c, width) => do
      let cs ← decodeFrom n (position + width) (rest.drop (width - 1))
      return c :: cs

def decode (bytes : List UInt8) : Except DecodeError (List Char) :=
  decodeFrom bytes.length 0 bytes

/-- Decodes at most `n` characters, with U+FFFD in place of each part at fault. -/
def repairFrom : Nat → List UInt8 → List Char
  | _, [] => []
  | 0, _ :: _ => []
  | n + 1, first :: rest =>
    match next first rest with
    | .error (_, width) => '\uFFFD' :: repairFrom n (rest.drop (width - 1))
    | .ok (c, width) => c :: repairFrom n (rest.drop (width - 1))

def repair (bytes : List UInt8) : List Char := repairFrom bytes.length bytes

end Mykt.Text.Utf8
