import MacroMachine.Machine.Execution

/-!
# Variables and arguments

A variable lives in a slot of the current frame or in its symbol.  Reading a variable that has no
value is a fault.  Assigning an array stores a copy of its own, one level deep, so that no two
variables share a container.
-/

namespace MacroMachine

/-- Where a variable lives. -/
inductive Place where
  /-- In the current frame, at an offset from the frame pointer. -/
  | frame (offset : Nat)
  /-- In its symbol. -/
  | global (id : SymbolId)
deriving DecidableEq, Repr, Inhabited

/-- The offset of a variable in the frames of its program. -/
def Symbol.frameOffset (symbol : Symbol) : Except Fault Nat :=
  match symbol.value with
  | .int n =>
    if n.toInt < 0 then .error (.malformed (.noFrameOffset symbol.name)) else .ok n.toInt.toNat
  | _ => .error (.malformed (.noFrameOffset symbol.name))

namespace Execution

/-- Where the variable of a symbol lives; none if the symbol is no variable. -/
def place? (id : SymbolId) : Execution (Option Place) := do
  let symbol ← symbol id
  match symbol.kind with
  | .frameLocal => return some (.frame (← ofExcept symbol.frameOffset))
  | .global => return some (.global id)
  | _ => return none

/-- What a place holds. -/
def read : Place → Execution Value
  | .frame offset => view (Context.localValue offset)
  | .global id => do return (← symbol id).value

/-- Replaces what a place holds. -/
def write : Place → Value → Execution Unit
  | .frame offset, v => transition (Context.setLocal offset v)
  | .global id, v => do
    let _ ← symbol id
    modifySymbols (·.setValue id v)

/-- Calls a routine of the host.  Gives its result and whether it asked for its caller to be
suspended. -/
abbrev Caller := (symbol : SymbolId) → NativeId → List Value → Execution (Value × Bool)

/-- The value of an argument symbol that holds `index`. -/
def argumentValue (id : SymbolId) (index : Int32) : Execution Value := do
  let count ← view Context.argumentCount
  if index = SymbolTable.argumentCountIndex then
    return .ofNat count
  else if index.toInt < 0 ∨ count ≤ index.toInt.toNat then
    raise (.undefinedArgument (← symbolName id))
  else
    view (Context.argument index.toInt.toNat)

/-- The value that reading a symbol gives. -/
def symbolValue (invoke : Caller) (id : SymbolId) : Execution Value := do
  let symbol ← symbol id
  match symbol.kind with
  | .frameLocal => view (Context.localValue (← ofExcept symbol.frameOffset))
  | .global | .constant => return symbol.value
  | .argument => argumentValue id (← convert symbol.value.asInt)
  | .property =>
    match symbol.value with
    | .native routine => do
      -- reading a variable cannot suspend the macro
      return (← invoke id routine []).1
    | _ => raise (.malformed (.noAccessor symbol.name))
  | .native | .function => raise (.mismatch (.notReadable symbol.name))

/-- Puts the value of a symbol on the stack. -/
def pushSymbol (invoke : Caller) : Execution Outcome := do
  let id ← transition Context.fetchSymbol
  let value ← symbolValue invoke id
  if value.isUnset then
    raise (.unsetVariable (← symbolName id))
  else
    push value
    return .next

/-- Why the symbol cannot be assigned to. -/
def notAssignable (symbol : Symbol) : NotAssignable :=
  match symbol.kind with
  | .argument => .argument symbol.name
  | .property => .property symbol.name
  | _ => .notVariable symbol.name

/-- Stores the top value in a variable. -/
def assign : Execution Outcome := do
  let id ← transition Context.fetchSymbol
  match ← place? id with
  | none => raise (.notAssignable (notAssignable (← symbol id)))
  | some place =>
    let value ← pop
    let copied ← withStore (·.copyForAssignment value)
    write place copied
    return .next

/-- Puts an argument on the stack, its number counted from 1 on top of the stack. -/
def pushArgument : Execution Outcome := do
  let n ← convert (← pop).toInt
  let count ← view Context.argumentCount
  if n.toInt < 1 ∨ count < n.toInt.toNat then
    raise (.undefinedArgument ("$args[" ++ Numeral.render n ++ "]"))
  else
    push (← view (Context.argument (n.toInt.toNat - 1)))
    return .next

/-- Puts the number of arguments on the stack. -/
def pushArgumentCount : Execution Outcome := do
  push (.ofNat (← view Context.argumentCount))
  return .next

/-- Arguments under the keys 0, 1, 2, … -/
def argumentEntries (arguments : List Value) : Entries Value :=
  .ofList (arguments.zipIdx.map fun (value, i) => (toString i, value))

/-- The arguments as a new array, which the frame keeps. -/
def makeArgumentArray : Execution Value := do
  let arguments ← view Context.arguments
  let ref ← withStore (·.alloc (argumentEntries arguments))
  transition (Context.setArgumentArray (.array ref))
  return .array ref

/-- Puts the arguments on the stack as an array, made when it is first asked for. -/
def pushArgumentArray : Execution Outcome := do
  let cached ← view Context.argumentArray
  let array ← if cached.isArray then pure cached else makeArgumentArray
  push array
  return .next

end Execution

end MacroMachine
