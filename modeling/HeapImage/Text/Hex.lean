import HeapImage.Bytes.LittleEndian

/-!
# Hexadecimal text

Digits of numbers and bytes, most significant digit first.
-/

namespace HeapImage.Hex
set_option autoImplicit false

inductive LetterCase where
  | lower
  | upper

def digit (letters : LetterCase) (n : Nat) : Char :=
  if n < 10 then Char.ofNat (48 + n)
  else match letters with
    | .lower => Char.ofNat (87 + n)
    | .upper => Char.ofNat (55 + n)

/-- The digits of a number, without leading zeros but never none. -/
def digits (letters : LetterCase) (n : Nat) : List Char :=
  if _ : n < 16 then [digit letters n]
  else digits letters (n / 16) ++ [digit letters (n % 16)]
termination_by n

/-- Lower-case digits behind a radix mark. -/
def marked (n : Nat) : String := "0x" ++ String.ofList (digits .lower n)

/-- Upper-case digits behind a radix mark, with zeros up to the given number of characters. -/
def padded (width n : Nat) : String :=
  let shown := digits .upper n
  "0x" ++ String.ofList (List.replicate (width - 2 - shown.length) '0' ++ shown)

/-- Two lower-case digits per byte. -/
def ofBytes (bytes : Bytes) : String :=
  bytes.foldl (fun text b =>
    (text.push (digit .lower (b.toNat / 16))).push (digit .lower (b.toNat % 16))) ""

/-- All sixteen digits of a 64-bit number. -/
def ofUInt64 (n : UInt64) : String :=
  let shown := digits .lower n.toNat
  String.ofList (List.replicate (16 - shown.length) '0' ++ shown)

def digit? (c : Char) : Option Nat :=
  if '0' ≤ c ∧ c ≤ '9' then some (c.toNat - 48)
  else if 'a' ≤ c ∧ c ≤ 'f' then some (c.toNat - 87)
  else if 'A' ≤ c ∧ c ≤ 'F' then some (c.toNat - 55)
  else none

def pairs? (bytes : Bytes) : List Char → Option Bytes
  | [] => some bytes
  | [_] => none
  | high :: low :: rest =>
    match digit? high, digit? low with
    | some h, some l => pairs? (bytes.push (UInt8.ofNat (16 * h + l))) rest
    | _, _ => none

def toBytes? (text : String) : Option Bytes := pairs? #[] text.toList

end HeapImage.Hex
