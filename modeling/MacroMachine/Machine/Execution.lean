import MacroMachine.Native

/-!
# Execution

An instruction changes the world and the context of the macro that it belongs to.  It is written
as an `Execution`: a change of both that may come to a halt, with the state that the halt leaves
behind.

*Halts.*  Besides faults there is one more way to stop.  A routine may run another macro, which may
run for ever; whoever runs a macro therefore bounds the number of instructions, and running out of
that bound is `unfinished`.  It is no outcome of the macro.

*Host.*  What stays fixed while macros run is the host: its limits and its routines.
-/

namespace MacroMachine

/-- The limits that a host sets for every macro. -/
structure Limits where
  /-- The largest number of values on the stack of a context. -/
  stackSize : Nat := 1024
  /-- The number of instructions in one slice; none if macros are never cut. -/
  instructionLimit : Option Nat := some 100
deriving DecidableEq, Repr, Inhabited

/-- What a host provides. -/
structure Host where
  limits : Limits
  /-- What each routine does with its arguments. -/
  routine : NativeId → List Value → Routine

/-- A macro in execution together with the world. -/
structure State where
  world : World
  context : Context
deriving DecidableEq, Repr, Inhabited

/-- Why an execution stops short. -/
inductive Halt where
  | fault (fault : Fault)
  /-- The bound on the number of instructions is used up. -/
  | unfinished
deriving DecidableEq, Repr, Inhabited

/-- A change of the world and of a context that may come to a halt. -/
abbrev Execution (α : Type) := EStateM Halt State α

/-- Runs a context for one slice; no answer if the bound on instructions is used up. -/
abbrev Runner := World → Context → Option (Status × World)

/-- What an instruction means for its macro. -/
inductive Outcome where
  /-- Go on with the next instruction. -/
  | next
  /-- The outermost frame has returned; its value is on top of the stack. -/
  | done
  /-- A routine asked that the macro be suspended. -/
  | preempt
deriving DecidableEq, Repr, Inhabited

namespace Execution

/-- Stops with a fault. -/
def raise {α : Type} (fault : Fault) : Execution α := fun s =>
  .error (.fault fault) s

/-- A change of the context alone. -/
def transition {α : Type} (t : Transition α) : Execution α := fun ⟨world, context⟩ =>
  match t context with
  | .ok a context => .ok a ⟨world, context⟩
  | .error e context => .error (.fault e) ⟨world, context⟩

/-- Something read from the context. -/
def view {α : Type} (f : Context → Except Fault α) : Execution α := fun s =>
  match f s.context with
  | .ok a => .ok a s
  | .error e => .error (.fault e) s

/-- The result of a calculation, or its fault. -/
def ofExcept {α : Type} : Except Fault α → Execution α
  | .ok a => pure a
  | .error e => raise e

/-- A conversion of a value. -/
def convert {α : Type} : Except Mismatch α → Execution α
  | .ok a => pure a
  | .error why => raise (.mismatch why)

/-- The current context. -/
def context : Execution Context := fun s =>
  .ok s.context s

/-- The current world. -/
def world : Execution World := fun s =>
  .ok s.world s

/-- A change of the world alone. -/
def modifyWorld (f : World → World) : Execution Unit := fun ⟨world, context⟩ =>
  .ok () ⟨f world, context⟩

/-- A change of the symbol table alone. -/
def modifySymbols (f : SymbolTable → SymbolTable) : Execution Unit :=
  modifyWorld fun w => { w with symbols := f w.symbols }

/-- A change of the store alone. -/
def modifyStore (f : Store → Store) : Execution Unit :=
  modifyWorld fun w => { w with store := f w.store }

/-- A change of the store that has a result. -/
def withStore {α : Type} (f : Store → α × Store) : Execution α := fun ⟨world, context⟩ =>
  let (a, store) := f world.store
  .ok a ⟨{ world with store }, context⟩

/-- Puts a value on the stack. -/
def push (v : Value) : Execution Unit :=
  transition (Context.push v)

/-- Takes the top value off the stack. -/
def pop : Execution Value :=
  transition Context.pop

/-- The name of a symbol. -/
def symbolName (id : SymbolId) : Execution String := fun s =>
  .ok (s.world.symbols.name id) s

/-- The symbol with a number. -/
def symbol (id : SymbolId) : Execution Symbol := fun s =>
  match s.world.symbols.get? id with
  | some symbol => .ok symbol s
  | none => .error (.fault (.malformed (.unknownSymbol id))) s

end Execution

end MacroMachine
