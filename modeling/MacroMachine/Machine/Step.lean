import MacroMachine.Machine.Calls
import MacroMachine.Machine.Elements
import MacroMachine.Machine.Operators

/-!
# Single instructions

One step takes the next opcode, puts it on record and carries it out.  A step is total: the only
thing it cannot bound by itself is a macro that a routine runs, and how that is run is a parameter.
-/

namespace MacroMachine.Execution

/-- Goes to the slot that a branch operand leads to. -/
def branch : Execution Outcome := do
  let target ← transition Context.fetchBranch
  transition (Context.jump target)
  return .next

/-- Branches if the truth of the top value is as `wanted`. -/
def branchIf (wanted : Bool) : Execution Outcome := do
  let target ← transition Context.fetchBranch
  let condition ← convert (← pop).toInt
  if (condition != 0) == wanted then
    transition (Context.jump target)
    return .next
  else
    return .next

/-- Steps over a branch operand. -/
def branchNever : Execution Outcome := do
  transition Context.skip
  return .next

/-- Puts the top value on the stack once more. -/
def duplicate : Execution Outcome := do
  push (← view (Context.peek 0))
  return .next

/-- Carries out an opcode whose operands come next. -/
def carryOut (invoke : Caller) : Opcode → Execution Outcome
  | .returnNothing => returnNothing
  | .returnValue => returnValue
  | .pushSymbol => pushSymbol invoke
  | .duplicate => duplicate
  | .assign => assign
  | .add => arrayOrInt Store.union (· + ·)
  | .subtract => arrayOrInt Store.difference (· - ·)
  | .multiply => binaryInt fun a b => .ok (a * b)
  | .divide => binaryInt quotient
  | .remainder => binaryInt MacroMachine.remainder
  | .negate => unaryInt (- ·)
  | .increment => unaryInt (· + 1)
  | .decrement => unaryInt (· - 1)
  | .power => binaryInt MacroMachine.power
  | .greater => binaryInt fun a b => .ok (flag (b < a))
  | .less => binaryInt fun a b => .ok (flag (a < b))
  | .greaterEqual => binaryInt fun a b => .ok (flag (b ≤ a))
  | .lessEqual => binaryInt fun a b => .ok (flag (a ≤ b))
  | .equal => equality true
  | .notEqual => equality false
  | .bitAnd => arrayOrInt Store.intersection (· &&& ·)
  | .bitOr => arrayOrInt Store.union (· ||| ·)
  | .and => binaryInt fun a b => .ok (flag (a != 0 && b != 0))
  | .or => binaryInt fun a b => .ok (flag (a != 0 || b != 0))
  | .not => unaryInt fun a => flag (a == 0)
  | .concat => concatenate
  | .call => call invoke
  | .fetchResult => raise (.malformed .strayFetch)
  | .branch => branch
  | .branchTrue => branchIf true
  | .branchFalse => branchIf false
  | .branchNever => branchNever
  | .element => element
  | .setElement => setElement
  | .beginIteration => beginIteration
  | .iterate => iterate
  | .contains => membership
  | .deleteElement => deleteElement
  | .pushArray => pushArray
  | .prepareUpdate => prepareUpdate
  | .pushArgument => pushArgument
  | .pushArgumentCount => pushArgumentCount
  | .pushArgumentArray => pushArgumentArray

/-- Puts an instruction on record. -/
def record (opcode : Opcode) (position : Nat) : Execution Unit := fun ⟨world, context⟩ =>
  let dispatch := { opcode, position, depth := context.stack.size }
  .ok () ⟨{ world with dispatches := world.dispatches.push dispatch }, context⟩

/-- Takes the next opcode and carries it out. -/
def step (host : Host) (nested : Runner) : Execution Outcome := do
  let position := (← context).pc.index
  let opcode ← transition Context.fetchOpcode
  record opcode position
  carryOut (invoke host nested) opcode

end MacroMachine.Execution
