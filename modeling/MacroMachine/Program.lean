import MacroMachine.Opcode

/-!
# Programs

A program is a row of slots: opcodes, each followed by its operands in slots of their own.  It also
lists its local variables; a local's place in that list is its place in every frame of the program.
Programs never change once they are built.  Two programs may hold the same slots and still be
different programs, so values and addresses refer to a program by a handle with an identity.
-/

namespace MacroMachine

/-- The number of a symbol in its symbol table. -/
structure SymbolId where
  index : UInt32
deriving DecidableEq, Repr, Inhabited

/-- The text that stands for a symbol number in messages. -/
def SymbolId.describe (id : SymbolId) : String :=
  "SymbolId(" ++ toString id.index.toNat ++ ")"

/-- One slot of a program's code. -/
inductive Instruction where
  | op (opcode : Opcode)
  /-- A count, a flag, or a branch offset relative to this slot. -/
  | immediate (n : Int64)
  | symbol (id : SymbolId)
deriving DecidableEq, Repr, Inhabited

namespace Instruction

/-- The text that stands for a slot in messages and listings. -/
def describe : Instruction → String
  | .op opcode => "Op(" ++ opcode.shortName ++ ")"
  | .immediate n => "Immediate(" ++ toString n.toInt ++ ")"
  | .symbol id => "Symbol(" ++ id.describe ++ ")"

/-- The text that stands for a slot that may lie outside the code. -/
def describe? : Option Instruction → String
  | none => "None"
  | some slot => "Some(" ++ slot.describe ++ ")"

end Instruction

/-- A compiled macro. -/
structure Program where
  /-- Opcodes and operands, one slot each. -/
  code : Array Instruction
  /-- The local variables, in the order of their places in a frame. -/
  locals : List SymbolId
deriving DecidableEq, Repr, Inhabited

/-- The number of slots of a program. -/
def Program.size (p : Program) : Nat :=
  p.code.size

/-- A program together with its identity. -/
structure ProgramRef where
  id : Nat
  program : Program
deriving DecidableEq, Repr, Inhabited

/-- Whether two handles refer to the same program. -/
def ProgramRef.same (p q : ProgramRef) : Bool :=
  p.id == q.id

/-- A position in the code of a program. -/
structure CodeAddress where
  program : ProgramRef
  index : Nat
deriving DecidableEq, Repr, Inhabited

namespace CodeAddress

/-- The slot at an address; none past the end of the code. -/
def slot? (a : CodeAddress) : Option Instruction :=
  a.program.program.code[a.index]?

/-- The slot `back` places before an address. -/
def slotBefore? (a : CodeAddress) (back : Nat) : Option Instruction :=
  if back ≤ a.index then a.program.program.code[a.index - back]? else none

/-- The address `n` slots further on. -/
def advance (a : CodeAddress) (n : Nat) : CodeAddress :=
  { a with index := a.index + n }

/-- Another address in the same program. -/
def jump (a : CodeAddress) (target : Nat) : CodeAddress :=
  { a with index := target }

/-- Whether two addresses are the same place of the same program. -/
def same (a b : CodeAddress) : Bool :=
  a.program.same b.program && a.index == b.index

end CodeAddress

end MacroMachine
