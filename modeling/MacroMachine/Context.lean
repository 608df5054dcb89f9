import MacroMachine.Fault

/-!
# Contexts

A context is one macro in execution: its stack, where its current frame begins, where it is in the
code, and the documents that routines of the host act on.

*Frames.*  A frame begins at the frame pointer `fp` with the local variables, one slot each.  Four
bookkeeping slots lie below it, and the arguments below those, the first one deepest:

```text
  fp + i        local variable i
  fp - 1        the arguments as an array, once they have been asked for
  fp - 2        the number n of arguments
  fp - 3        the caller's frame pointer
  fp - 4        the caller's address to return to
  fp - 4 - n    argument 0
```

The slots are ordinary stack slots, which code can reach and spoil; every access checks what it
finds.

*Transitions.*  An operation that changes the context is a `Transition`.  It may fail, and it says
which context a failure leaves behind.
-/

namespace MacroMachine

/-- A document of the host; the machine only passes it on. -/
structure DocumentHandle where
  number : Nat
deriving DecidableEq, Repr, Inhabited

/-- The state of one macro in execution. -/
structure Context where
  /-- The stack, bottom first. -/
  stack : Array Value
  /-- The largest size that the stack may have. -/
  limit : Nat
  /-- Where the current frame begins. -/
  fp : Nat
  /-- The next slot of the code. -/
  pc : CodeAddress
  /-- The document that the macro was started for. -/
  runTarget : Option DocumentHandle
  /-- The document that routines act on now. -/
  focusTarget : Option DocumentHandle
deriving DecidableEq, Repr, Inhabited

/-- A change of a context that may fail. -/
abbrev Transition (α : Type) := EStateM Fault Context α

namespace Context

/-! ## Stack -/

/-- Puts a value on the stack. -/
def push (v : Value) : Transition Unit := fun c =>
  if c.limit ≤ c.stack.size then .error .stackOverflow c
  else .ok () { c with stack := c.stack.push v }

/-- Takes the top value off the stack. -/
def pop : Transition Value := fun c =>
  match c.stack.back? with
  | some v => .ok v { c with stack := c.stack.pop }
  | none => .error .stackUnderflow c

/-- The value `depth` slots below the top. -/
def peek (depth : Nat) (c : Context) : Except Fault Value :=
  if depth < c.stack.size then
    match c.stack[c.stack.size - (depth + 1)]? with
    | some v => .ok v
    | none => .error .stackUnderflow
  else .error .stackUnderflow

/-- Takes the top `n` values off the stack and gives them, the deepest first. -/
def popMany (n : Nat) : Transition (List Value) := fun c =>
  if n ≤ c.stack.size then
    let kept := c.stack.size - n
    .ok (c.stack.extract kept c.stack.size).toList { c with stack := c.stack.extract 0 kept }
  else .error .stackUnderflow c

/-- Takes the top `n` values off the stack. -/
def drop (n : Nat) : Transition Unit := fun c =>
  if n ≤ c.stack.size then .ok () { c with stack := c.stack.extract 0 (c.stack.size - n) }
  else .error .stackUnderflow c

/-! ## Code -/

/-- Moves on to the next slot. -/
def skip : Transition Unit := fun c =>
  .ok () { c with pc := c.pc.advance 1 }

/-- Moves to another slot of the same program. -/
def jump (target : Nat) : Transition Unit := fun c =>
  .ok () { c with pc := c.pc.jump target }

/-- Whether the next slot holds this opcode. -/
def nextIs (opcode : Opcode) (c : Context) : Bool :=
  c.pc.slot? == some (.op opcode)

/-- Takes the next opcode.  The end of the code counts as a return without a value. -/
def fetchOpcode : Transition Opcode := fun c =>
  match c.pc.slot? with
  | none => .ok .returnNothing c
  | some (.op opcode) => .ok opcode { c with pc := c.pc.advance 1 }
  | some slot => .error (.malformed (.operandForOpcode slot c.pc.index)) c

/-- Takes a symbol operand. -/
def fetchSymbol : Transition SymbolId := fun c =>
  match c.pc.slot? with
  | some (.symbol id) => .ok id { c with pc := c.pc.advance 1 }
  | slot => .error (.malformed (.symbolExpected c.pc.index slot)) c

/-- Takes an immediate operand. -/
def fetchImmediate : Transition Int64 := fun c =>
  match c.pc.slot? with
  | some (.immediate n) => .ok n { c with pc := c.pc.advance 1 }
  | slot => .error (.malformed (.immediateExpected c.pc.index slot)) c

/-- Takes an immediate operand that counts something. -/
def fetchCount : Transition Nat := fun c =>
  match fetchImmediate c with
  | .ok n c => if n.toInt < 0 then .error (.malformed (.negativeCount n)) c else .ok n.toInt.toNat c
  | .error e c => .error e c

/-- Takes a branch operand and gives the slot that it leads to. -/
def fetchBranch : Transition Nat := fun c =>
  let site := c.pc.index
  match fetchImmediate c with
  | .ok offset c =>
    let target := (site : Int) + offset.toInt
    if 0 ≤ target ∧ target ≤ c.pc.program.program.size then .ok target.toNat c
    else .error (.malformed (.branchOutOfRange site)) c
  | .error e c => .error e c

/-! ## The current frame -/

/-- The slot `distance` below the frame pointer. -/
def below (distance : Nat) (c : Context) : Except Fault Value :=
  if distance ≤ c.fp then
    match c.stack[c.fp - distance]? with
    | some v => .ok v
    | none => .error (.malformed .noFrame)
  else .error (.malformed .noFrame)

/-- The number of arguments of the current frame. -/
def argumentCount (c : Context) : Except Fault Nat :=
  match c.below 2 with
  | .ok (.int n) =>
    if n.toInt < 0 then .error (.malformed (.corruptSlot .argumentCount (.int n)))
    else .ok n.toInt.toNat
  | .ok v => .error (.malformed (.corruptSlot .argumentCount v))
  | .error e => .error e

/-- The frame pointer of the caller; none in the outermost frame. -/
def savedFrame (c : Context) : Except Fault (Option Nat) :=
  match c.below 3 with
  | .ok (.frame fp) => .ok fp
  | .ok v => .error (.malformed (.corruptSlot .savedFrame v))
  | .error e => .error e

/-- The address to return to; none in the outermost frame. -/
def savedAddress (c : Context) : Except Fault (Option CodeAddress) :=
  match c.below 4 with
  | .ok (.address a) => .ok a
  | .ok v => .error (.malformed (.corruptSlot .savedAddress v))
  | .error e => .error e

/-- The slot that keeps the arguments as an array. -/
def argumentArray (c : Context) : Except Fault Value :=
  c.below 1

/-- The argument with an index, counted from zero. -/
def argument (index : Nat) (c : Context) : Except Fault Value :=
  match c.argumentCount with
  | .ok count =>
    if index < count then c.below (4 + count - index)
    else .error (.malformed (.argumentOutOfFrame index count))
  | .error e => .error e

/-- All arguments, in order. -/
def arguments (c : Context) : Except Fault (List Value) :=
  match c.argumentCount with
  | .ok count =>
    if 4 + count ≤ c.fp then .ok (c.stack.extract (c.fp - (4 + count)) (c.fp - 4)).toList
    else .error (.malformed .frameBelowStack)
  | .error e => .error e

/-- The value of the local variable at a place in the frame.  A frame pointer is a number of any
size, so a pointer that code has forged close to 2 ^ 64 leads outside the stack, and never wraps
around to its bottom. -/
def localValue (offset : Nat) (c : Context) : Except Fault Value :=
  match c.stack[c.fp + offset]? with
  | some v => .ok v
  | none => .error (.malformed (.localOutsideFrame offset))

/-- Replaces the value of the local variable at a place in the frame, which is found as for reading
it. -/
def setLocal (offset : Nat) (v : Value) : Transition Unit := fun c =>
  if c.fp + offset < c.stack.size then
    .ok () { c with stack := c.stack.setIfInBounds (c.fp + offset) v }
  else .error (.malformed (.localOutsideFrame offset)) c

/-- Keeps the arguments as an array. -/
def setArgumentArray (v : Value) : Transition Unit := fun c =>
  if 1 ≤ c.fp ∧ c.fp - 1 < c.stack.size then
    .ok () { c with stack := c.stack.setIfInBounds (c.fp - 1) v }
  else .error (.malformed .noFrame) c

/-! ## Calls and returns -/

/-- Enters a program whose `count` arguments lie on top of the stack: bookkeeping slots, then local
variables without values. -/
def pushFrame (returnTo : Option CodeAddress) (caller : Option Nat) (count : Nat)
    (program : ProgramRef) : Transition Unit := fun c =>
  let size := c.stack.size
  let locals := program.program.locals.length
  if size < count then .error .stackUnderflow c
  else if c.limit < size + (4 + locals) then .error .stackOverflow c
  else
    let bookkeeping := #[.address returnTo, .frame caller, Value.ofNat count, .unset]
    .ok () { c with
      stack := c.stack ++ bookkeeping ++ Array.replicate locals .unset
      fp := size + 4
      pc := { program := program, index := 0 } }

/-- Enters a program from the current place of the current frame. -/
def enter (count : Nat) (program : ProgramRef) : Transition Unit := fun c =>
  pushFrame (some c.pc) (some c.fp) count program c

/-- Leaves the current frame: removes it with its arguments and goes back to the caller.  Gives the
address returned to, none for the outermost frame. -/
def popFrame : Transition (Option CodeAddress) := fun c =>
  match c.argumentCount, c.savedFrame, c.savedAddress with
  | .error e, _, _ => .error e c
  | _, .error e, _ => .error e c
  | _, _, .error e => .error e c
  | .ok count, .ok caller, .ok returnTo =>
    if 4 + count ≤ c.fp then
      .ok returnTo { c with
        stack := c.stack.extract 0 (c.fp - (4 + count))
        fp := caller.getD 0
        pc := returnTo.getD c.pc }
    else .error (.malformed .frameBelowStack) c

/-- A context that is about to run a program with some arguments. -/
def start (program : ProgramRef) (arguments : List Value) (limit : Nat)
    (target : Option DocumentHandle) : Except Fault Context :=
  let blank : Context :=
    { stack := #[], limit := limit, fp := 0, pc := { program := program, index := 0 }
      runTarget := target, focusTarget := target }
  if limit < arguments.length then .error .stackOverflow
  else
    match pushFrame none none arguments.length program
        { blank with stack := arguments.toArray } with
    | .ok () c => .ok c
    | .error e _ => .error e

/-! ## Host -/

/-- Makes another document the one that routines act on. -/
def setFocus (target : Option DocumentHandle) (c : Context) : Context :=
  { c with focusTarget := target }

/-- Replaces the result of the call that the context has just come back from, if it is wanted. -/
def replaceResult (v : Value) (c : Context) : Context :=
  if c.pc.slotBefore? 1 = some (.op .fetchResult) then
    { c with stack := c.stack.setIfInBounds (c.stack.size - 1) v }
  else c

end Context

end MacroMachine
