import BallotMix.Number.Basic

/-!
# Hexadecimal text

Numbers are written in upper case with an even number of digits, a minus sign in front if negative,
and zero as a single digit; they are read in either case with any number of digits.  Byte strings
are written in lower case, two digits a byte, and read in either case.
-/

namespace BallotMix.Hex

/-- The value of a hexadecimal digit. -/
def digit? (c : Char) : Option Nat :=
  if '0' ≤ c ∧ c ≤ '9' then some (c.toNat - '0'.toNat)
  else if 'a' ≤ c ∧ c ≤ 'f' then some (c.toNat - 'a'.toNat + 10)
  else if 'A' ≤ c ∧ c ≤ 'F' then some (c.toNat - 'A'.toNat + 10)
  else none

def lowerDigits : List Char := "0123456789abcdef".toList

def upperDigits : List Char := "0123456789ABCDEF".toList

/-- The two digits of a byte, taken from the given sixteen. -/
def pair (digits : List Char) (b : UInt8) : List Char :=
  [digits.getD (b.toNat / 16) '0', digits.getD (b.toNat % 16) '0']

/-! ## Numbers -/

/-- The number that a list of digits writes, highest first. -/
def ofDigits (digits : List Nat) : Nat := digits.foldl (fun n d => n * 16 + d) 0

/-- The magnitude that a text of one or more digits writes. -/
def magnitude? (text : List Char) : Option Nat :=
  if text.isEmpty then none else (text.mapM digit?).map ofDigits

/-- The number that a text of an optional minus sign and one or more digits writes. -/
def number (text : String) : Result Int :=
  let value? : Option Int :=
    match text.toList with
    | '-' :: digits => (magnitude? digits).map fun n => -(n : Int)
    | digits => (magnitude? digits).map fun n => (n : Int)
  match value? with
  | some x => .ok x
  | none => .error (.argument (.hexNumber text))

def ofNumber (x : Int) : String :=
  let n := x.natAbs
  let digits :=
    if n = 0 then ['0'] else (Bytes.ofNat (Number.byteLength n) n).flatMap (pair upperDigits)
  String.ofList (if x < 0 then '-' :: digits else digits)

/-! ## Byte strings -/

/-- The bytes of which the digits are two by two the values. -/
def joinPairs : List Nat → Bytes
  | high :: low :: rest => UInt8.ofNat (high * 16 + low) :: joinPairs rest
  | _ => []

def bytes (text : String) : Result Bytes :=
  if text.utf8ByteSize % 2 ≠ 0 then .error (.argument .oddHexLength)
  else
    match text.toList.mapM digit? with
    | some digits => .ok (joinPairs digits)
    | none => .error (.argument .nonHexDigit)

def ofBytes (data : Bytes) : String := String.ofList (data.flatMap (pair lowerDigits))

end BallotMix.Hex
