/-!
# Hexadecimal text

Bytes written as two lower-case digits each, for programs that show bytes or are given some
(`Hex.encode`, `Hex.decode?`). No codec knows about this.
-/

namespace Sluice.Hex

/-- The digit for a number below 16. -/
def digit (n : Nat) : Char := Nat.digitChar n

/-- The number that a digit stands for. -/
def digitValue? (c : Char) : Option Nat :=
  if c.isDigit then some (c.toNat - '0'.toNat)
  else if 'a' ≤ c ∧ c ≤ 'f' then some (c.toNat - 'a'.toNat + 10)
  else none

/-- The two digits of a byte. -/
def encodeByte (byte : UInt8) : List Char := [digit (byte.toNat / 16), digit (byte.toNat % 16)]

/-- The byte that two digits stand for. -/
def decodeByte? (high low : Char) : Option UInt8 := do
  return UInt8.ofNat (16 * (← digitValue? high) + (← digitValue? low))

/-- The digits of some bytes. -/
def encode (bytes : List UInt8) : String := .ofList (bytes.flatMap encodeByte)

/-- The bytes that some digits stand for, added to those that came before. -/
def decodeChars? : List Char → Array UInt8 → Option (List UInt8)
  | [], acc => some acc.toList
  | [_], _ => none
  | high :: low :: rest, acc => do decodeChars? rest (acc.push (← decodeByte? high low))

/-- The bytes that a text stands for, if it is a whole number of pairs of digits. -/
def decode? (text : String) : Option (List UInt8) := decodeChars? text.toList #[]

end Sluice.Hex
