/-!
# Numerals

Texts stand for numbers wherever a macro calculates with them.  A text reads as a number when it is
a run of blanks, at most one sign, a run of decimal digits and a run of blanks, and nothing else;
no digits at all read as zero.

*Bytes.*  Texts are read byte by byte.  Blanks, signs and digits are single bytes, and no byte of
any other character is one of these.

*Range.*  The digits make a 64-bit magnitude that stays at its largest value instead of going beyond
it.  In the end the number is moved to the nearest 32-bit integer.
-/

namespace MacroMachine.Numeral

/-! ## Exact values -/

/-- The value of one decimal digit. -/
def digit (c : Char) : Nat :=
  c.toNat - '0'.toNat

/-- The value of a run of decimal digits, most significant first; zero for none. -/
def value (digits : List Char) : Nat :=
  digits.foldl (fun n c => 10 * n + digit c) 0

/-! ## Reading -/

/-- Blanks around a numeral are spaces and tabs. -/
def isBlank (byte : UInt8) : Bool :=
  byte == 32 || byte == 9

/-- Whether a byte is a decimal digit. -/
def isDigit (byte : UInt8) : Bool :=
  48 ≤ byte && byte ≤ 57

/-- Splits off an optional sign and tells whether it was a minus. -/
def splitSign : List UInt8 → Bool × List UInt8
  | [] => (false, [])
  | byte :: rest =>
    if byte == 43 then (false, rest)
    else if byte == 45 then (true, rest)
    else (false, byte :: rest)

/-- A magnitude with one more digit. -/
def extend (magnitude : Int64) (byte : UInt8) : Int64 :=
  .ofIntClamp ((Int64.ofIntClamp (magnitude.toInt * 10)).toInt + (byte - 48).toNat)

/-- The number that a row of bytes reads as, if it is a numeral. -/
def readBytes? (bytes : List UInt8) : Option Int32 :=
  let (negative, body) := splitSign (bytes.dropWhile isBlank)
  let magnitude := (body.takeWhile isDigit).foldl extend 0
  if ((body.dropWhile isDigit).dropWhile isBlank).isEmpty then
    some (.ofIntClamp (if negative then -magnitude else magnitude).toInt)
  else
    none

/-- The number that a text reads as, if it is a numeral. -/
def read? (text : String) : Option Int32 :=
  readBytes? text.toUTF8.data.toList

/-- The decimal text of a 32-bit integer. -/
def render (n : Int32) : String :=
  toString n.toInt

end MacroMachine.Numeral
