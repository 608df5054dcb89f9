import MacroMachine.Program
import MacroMachine.Text.Numeral

/-!
# Values

The nine kinds of values on the machine's stack, in its symbols and in its arrays.  Macros see
numbers, texts, arrays and the absence of a value; the other kinds are the machine's own
bookkeeping.  An array value only names its container, so copies of the value share what the
container holds.

*Access and conversion.*  The accessors (`asInt`, `asText`, `asArray`) accept one kind only.  The
conversions (`toInt`, `toText`) also read texts as numbers and write numbers as texts.  Each says
precisely why it refuses a value (`Mismatch`).
-/

namespace MacroMachine

/-- The name of an array container. -/
structure ArrayRef where
  index : Nat
deriving DecidableEq, Repr, Inhabited

/-- The name of a routine of the host. -/
structure NativeId where
  index : Nat
deriving DecidableEq, Repr, Inhabited

/-- A cursor into an array container; it names the key that it yields next. -/
structure Iterator where
  array : ArrayRef
  cursor : Option String
deriving DecidableEq, Repr, Inhabited

/-- A value of the machine. -/
inductive Value where
  /-- No value; reading a variable in this state is a fault. -/
  | unset
  | int (n : Int32)
  | text (s : String)
  | array (ref : ArrayRef)
  | iterator (it : Iterator)
  | native (id : NativeId)
  | program (p : ProgramRef)
  /-- A saved return address; none marks the outermost frame. -/
  | address (a : Option CodeAddress)
  /-- A saved frame pointer; none marks the outermost frame. -/
  | frame (fp : Option Nat)
deriving DecidableEq, Repr, Inhabited

/-- The kind of a value. -/
inductive Kind where
  | unset | int | text | array | iterator | native | program | address | frame
deriving DecidableEq, Repr, Inhabited

/-- What messages call values of a kind. -/
def Kind.name : Kind → String
  | .unset => "unset"
  | .int => "integer"
  | .text => "string"
  | .array => "array"
  | .iterator => "array iterator"
  | .native => "native subroutine"
  | .program => "macro function"
  | .address => "return address"
  | .frame => "frame pointer"

/-- Why a value does not fit where it is used. -/
inductive Mismatch where
  /-- A value of one kind stands where another kind is needed. -/
  | expected (wanted found : Kind)
  /-- A text that is no numeral stands for a number. -/
  | notNumeral
  /-- Values of this kind have no number. -/
  | noNumber (found : Kind)
  /-- Values of this kind have no text. -/
  | noText (found : Kind)
  /-- An operator has an array on its right and something else on its left. -/
  | mixedOperands
  /-- Only numbers and texts can be compared. -/
  | incomparable
  /-- Only numbers and texts can index an array. -/
  | badIndex
  /-- The symbol of this name is a routine, not a variable. -/
  | notReadable (name : String)
deriving DecidableEq, Repr

/-- The text of a mismatch. -/
def Mismatch.message : Mismatch → String
  | .expected wanted found => "expected " ++ wanted.name ++ ", got " ++ found.name
  | .notNumeral => "string could not be converted to number"
  | .noNumber found => "can't convert " ++ found.name ++ " to integer"
  | .noText found => "can't convert " ++ found.name ++ " to string"
  | .mixedOperands => "can't mix math with arrays and non-arrays"
  | .incomparable => "incompatible types to compare"
  | .badIndex => "can only index array with string or int."
  | .notReadable name => "reading non-variable: " ++ name

namespace Value

/-- The kind of a value. -/
def kind : Value → Kind
  | .unset => .unset
  | .int _ => .int
  | .text _ => .text
  | .array _ => .array
  | .iterator _ => .iterator
  | .native _ => .native
  | .program _ => .program
  | .address _ => .address
  | .frame _ => .frame

/-- Truth values are the numbers 0 and 1. -/
def ofBool (b : Bool) : Value :=
  .int (if b then 1 else 0)

/-- A natural number as a value, modulo 2 ^ 32. -/
def ofNat (n : Nat) : Value :=
  .int (Int32.ofNat n)

/-- Whether a value is missing. -/
def isUnset (v : Value) : Bool :=
  v.kind == .unset

/-- Whether a value is an array. -/
def isArray (v : Value) : Bool :=
  v.kind == .array

/-- The number in a number value. -/
def asInt : Value → Except Mismatch Int32
  | .int n => .ok n
  | v => .error (.expected .int v.kind)

/-- The text in a text value. -/
def asText : Value → Except Mismatch String
  | .text s => .ok s
  | v => .error (.expected .text v.kind)

/-- The container that an array value names. -/
def asArray : Value → Except Mismatch ArrayRef
  | .array ref => .ok ref
  | v => .error (.expected .array v.kind)

/-- The number that a number or a text stands for. -/
def toInt : Value → Except Mismatch Int32
  | .int n => .ok n
  | .text s =>
    match Numeral.read? s with
    | some n => .ok n
    | none => .error .notNumeral
  | v => .error (.noNumber v.kind)

/-- The text that a number or a text stands for. -/
def toText : Value → Except Mismatch String
  | .int n => .ok (Numeral.render n)
  | .text s => .ok s
  | v => .error (.noText v.kind)

/-- How a value is shown to the user of a macro. -/
def display : Value → String
  | .unset => "<no value>"
  | .int n => Numeral.render n
  | .text s => s
  | v => "<" ++ v.kind.name ++ ">"

/-- Whether two values are equal as the operators `=` and `≠` of macros see it: a text equals a
number if it reads as that number. -/
def looselyEqual : Value → Value → Except Mismatch Bool
  | .int a, .int b => .ok (a == b)
  | .text a, .text b => .ok (a == b)
  | .text s, .int n => .ok (Numeral.read? s == some n)
  | .int n, .text s => .ok (Numeral.read? s == some n)
  | _, _ => .error .incomparable

end Value

end MacroMachine
