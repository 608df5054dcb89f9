import MacroMachine.Machine.Execution

/-!
# Operators

Operators take their operands from the stack, the right one first, and leave one value.  Numbers
wrap around at 32 bits.  Addition, subtraction and the bitwise operators turn into set operators
when both operands are arrays; which of the two it is depends on the right operand alone, and an
array on the right of anything else is refused.
-/

namespace MacroMachine

/-- Truth values are the numbers 0 and 1. -/
def flag (b : Bool) : Int32 :=
  if b then 1 else 0

/-- The quotient rounded toward zero. -/
def quotient (a b : Int32) : Except Fault Int32 :=
  if b = 0 then .error .divisionByZero else .ok (a / b)

/-- The remainder of the quotient rounded toward zero. -/
def remainder (a b : Int32) : Except Fault Int32 :=
  if b = 0 then .error .remainderByZero else .ok (a % b)

/-- The integer power if it lies in the 32-bit range.  A base other than 0, 1 and -1 leaves the
range within 32 factors, so larger exponents need not be multiplied out. -/
def powerOfNat (base : Int) (exponent : Nat) : Except Fault Int32 :=
  let inRange := fun (n : Int) => Int32.minValue.toInt ≤ n ∧ n ≤ Int32.maxValue.toInt
  let reduced :=
    if base = 0 ∨ base = 1 then min exponent 1
    else if base = -1 then exponent % 2
    else min exponent 32
  let result := Int.pow base reduced
  if inRange result then .ok (Int32.ofInt result) else .error .powerOutOfRange

/-- Integer power.  A negative exponent gives the power rounded toward zero; zero has none. -/
def power (base exponent : Int32) : Except Fault Int32 :=
  if exponent.toInt < 0 then
    if base = 1 then .ok 1
    else if base = -1 then .ok (if exponent.toInt % 2 = 0 then 1 else -1)
    else if base = 0 then .error .powerOutOfRange
    else .ok 0
  else powerOfNat base.toInt exponent.toInt.toNat

namespace Execution

/-- Applies a function to the numbers that the two top values stand for. -/
def binaryInt (f : Int32 → Int32 → Except Fault Int32) : Execution Outcome := do
  let right ← convert (← pop).toInt
  let left ← convert (← pop).toInt
  push (.int (← ofExcept (f left right)))
  return .next

/-- Applies a function to the number that the top value stands for. -/
def unaryInt (f : Int32 → Int32) : Execution Outcome := do
  let n ← convert (← pop).toInt
  push (.int (f n))
  return .next

/-- Applies a set operator if the right operand is an array, and a function of numbers if not. -/
def arrayOrInt (setOperator : Store → ArrayRef → ArrayRef → ArrayRef × Store)
    (f : Int32 → Int32 → Int32) : Execution Outcome := do
  if (← view (Context.peek 0)).isArray then
    if (← view (Context.peek 1)).isArray then
      let right ← convert (← pop).asArray
      let left ← convert (← pop).asArray
      let result ← withStore fun store => setOperator store left right
      push (.array result)
      return .next
    else
      raise (.mismatch .mixedOperands)
  else
    binaryInt fun a b => .ok (f a b)

/-- Compares the two top values; `wanted` tells whether equality gives 1 or 0. -/
def equality (wanted : Bool) : Execution Outcome := do
  let right ← pop
  let left ← pop
  let same ← convert (left.looselyEqual right)
  push (.ofBool (same == wanted))
  return .next

/-- Joins the texts that the two top values stand for. -/
def concatenate : Execution Outcome := do
  let right ← convert (← pop).toText
  let left ← convert (← pop).toText
  push (.text (left ++ right))
  return .next

end Execution

end MacroMachine
