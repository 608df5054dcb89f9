import MacroMachine.Context
import MacroMachine.SymbolTable

/-!
# The world

Everything that all macros of one host share: the symbol table, the array containers, and the
identities handed out to programs and routines.  The world also keeps a record of what was
executed: every instruction, with its position and the size of the stack before it, and every call
of a routine of the host, with the arguments and the store as they were.
-/

namespace MacroMachine

/-- One executed instruction. -/
structure Dispatch where
  opcode : Opcode
  position : Nat
  /-- The size of the stack before the instruction. -/
  depth : Nat
deriving DecidableEq, Repr, Inhabited

/-- One call of a routine of the host. -/
structure NativeCall where
  routine : NativeId
  arguments : List Value
  /-- The store at the time of the call. -/
  store : Store
deriving DecidableEq, Repr, Inhabited

/-- What all macros share. -/
structure World where
  symbols : SymbolTable
  store : Store
  /-- How many programs have an identity. -/
  programCount : Nat
  /-- How many routines have an identity. -/
  nativeCount : Nat
  /-- A private counter for each routine that keeps one. -/
  tallies : List (NativeId × Nat)
  /-- The instructions executed so far. -/
  dispatches : Array Dispatch
  /-- The calls of routines made so far. -/
  calls : Array NativeCall
deriving DecidableEq, Repr, Inhabited

namespace World

/-- A world with a given symbol table and nothing else. -/
def ofSymbols (symbols : SymbolTable) : World :=
  { symbols, store := .empty, programCount := 0, nativeCount := 0, tallies := []
    dispatches := #[], calls := #[] }

/-- A world in which the symbols of the arguments are installed. -/
def initial : World :=
  ofSymbols .withArguments

/-- Gives a program an identity. -/
def share (w : World) (program : Program) : ProgramRef × World :=
  ({ id := w.programCount, program }, { w with programCount := w.programCount + 1 })

/-- Gives a new routine an identity. -/
def newNative (w : World) : NativeId × World :=
  (⟨w.nativeCount⟩, { w with nativeCount := w.nativeCount + 1 })

/-- Makes a new container. -/
def alloc (w : World) (e : Entries Value) : ArrayRef × World :=
  let (ref, store) := w.store.alloc e
  (ref, { w with store })

/-- The private counter of a routine. -/
def tally (w : World) (routine : NativeId) : Nat :=
  (w.tallies.lookup routine).getD 0

/-- Adds one to the private counter of a routine. -/
def tick (w : World) (routine : NativeId) : World :=
  { w with tallies := (routine, w.tally routine + 1) :: w.tallies.filter (·.1 != routine) }

/-- Forgets the record of what was executed. -/
def clearRecord (w : World) : World :=
  { w with dispatches := #[], calls := #[] }

end World

end MacroMachine
