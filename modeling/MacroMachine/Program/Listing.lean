import MacroMachine.SymbolTable
import MacroMachine.Text.Layout
import MacroMachine.Text.Quoted

/-!
# Listings

A listing shows a program one instruction to a line, with its operands beside it.  A listing is made
in two steps: the lines as data (`lines`), then their text (`render`).

*Positions.*  The listing steps from an opcode over its operand slots to the next opcode, as
execution does; a slot found where an opcode should be gets a line of its own.

*Targets.*  A line to which some branch operand of a listed opcode leads is marked, and the end of
the code is listed if some branch leads there.
-/

namespace MacroMachine.Listing

/-- The positions that get a line of their own, with their slots; `skip` operand slots come first.
-/
def positions : (skip position : Nat) → List Instruction → List (Nat × Instruction)
  | _, _, [] => []
  | skip + 1, position, _ :: rest => positions skip (position + 1) rest
  | 0, position, .op opcode :: rest =>
    (position, .op opcode) :: positions opcode.operandCount (position + 1) rest
  | 0, position, slot :: rest => (position, slot) :: positions 0 (position + 1) rest

/-- The slot to which the branch operand at `site` leads.  The sum is taken in 64 bits, so a
distance that goes beyond them leads nowhere. -/
def branchTarget? (code : Array Instruction) (site : Nat) : Option Nat :=
  match code[site]? with
  | some (.immediate offset) =>
    let target := (Int64.ofNat site + offset).toInt
    if 0 ≤ target then some target.toNat else none
  | _ => none

/-- The slots to which the branch operands of an opcode at `position` lead. -/
def targetsAt (code : Array Instruction) (position : Nat) (opcode : Opcode) : List Nat :=
  opcode.operands.zipIdx.filterMap fun (kind, k) =>
    if kind = .branchOffset then branchTarget? code (position + 1 + k) else none

/-- The slots to which the listed opcodes can branch. -/
def targets (code : Array Instruction) : List Nat :=
  (positions 0 0 code.toList).flatMap fun
    | (position, .op opcode) => targetsAt code position opcode
    | _ => []

/-! ## Operands as text -/

/-- A symbol as a listing shows it. -/
def symbolText (t : SymbolTable) (id : SymbolId) : String :=
  match t.get? id with
  | none => "<sym " ++ toString id.index.toNat ++ ">"
  | some symbol =>
    match symbol.kind, symbol.value with
    | .constant, .text s => Quoted.quote s
    | .constant, .int n => Numeral.render n
    | .frameLocal, .int n => symbol.name ++ " [local " ++ Numeral.render n ++ "]"
    | .argument, _ => symbol.name ++ " [arg]"
    | .native, _ => symbol.name ++ " [native]"
    | .property, _ => symbol.name ++ " [property]"
    | .function, _ => symbol.name ++ " [macro]"
    | _, _ => symbol.name

/-- An operand slot that should hold a symbol. -/
def symbolOperand (t : SymbolTable) : Option Instruction → String
  | some (.symbol id) => symbolText t id
  | slot => "<bad operand " ++ Instruction.describe? slot ++ ">"

/-- An operand slot that should hold an immediate. -/
def immediateOperand : Option Instruction → String
  | some (.immediate n) => toString n.toInt
  | slot => "<bad operand " ++ Instruction.describe? slot ++ ">"

/-- An operand slot that should hold a branch offset, by where it leads. -/
def branchOperand (code : Array Instruction) (site : Nat) : String :=
  match branchTarget? code site with
  | some target => "-> " ++ Layout.zeroPadded 4 target
  | none => "-> <bad offset>"

/-- An opcode and its operands as text. -/
def instructionText (t : SymbolTable) (code : Array Instruction) (position : Nat)
    (opcode : Opcode) : String :=
  let symbol := fun k => symbolOperand t code[position + 1 + k]?
  let immediate := fun k => immediateOperand code[position + 1 + k]?
  let branch := fun k => branchOperand code (position + 1 + k)
  let named := fun operands => Layout.padRight 12 opcode.mnemonic ++ operands
  match opcode with
  | .pushSymbol | .assign | .beginIteration => named (symbol 0)
  | .call => named (symbol 0 ++ " (" ++ immediate 1 ++ " args)")
  | .pushArray => named (symbol 0 ++ " makeEmpty=" ++ immediate 1)
  | .branch | .branchTrue | .branchFalse | .branchNever => named (branch 0)
  | .element | .setElement | .deleteElement => named ("nDim=" ++ immediate 0)
  | .prepareUpdate => named ("binOp=" ++ immediate 0 ++ " nDim=" ++ immediate 1)
  | .iterate => named (symbol 0 ++ " in " ++ symbol 1 ++ " else " ++ branch 2)
  | .returnValue => named "; ( value -- )"
  | .fetchResult => named "; result of preceding call"
  | _ => opcode.mnemonic

/-- What the line of a slot says after its position. -/
def slotText (t : SymbolTable) (code : Array Instruction) (position : Nat) : Instruction → String
  | .op opcode => Layout.trimEnd (instructionText t code position opcode)
  | slot => "??          stray operand " ++ slot.describe

/-! ## Lines -/

/-- One line of a listing. -/
structure Line where
  position : Nat
  /-- Whether some branch leads here. -/
  marked : Bool
  text : String
deriving DecidableEq, Repr

/-- The lines of a listing, the end of the code last if some branch leads there. -/
def lines (t : SymbolTable) (p : Program) : List Line :=
  let marks := targets p.code
  let slots := (positions 0 0 p.code.toList).map fun (position, slot) =>
    { position, marked := marks.contains position, text := slotText t p.code position slot : Line }
  let last := { position := p.size, marked := true, text := "<end>" : Line }
  if marks.contains p.size then slots ++ [last] else slots

/-- The rule above a marked line. -/
def separator : String :=
  "      ┌──────────────────────────────────\n"

/-- A line as text: position, marker, text. -/
def Line.render (line : Line) : String :=
  let marker := if line.marked then "► " else "  "
  Layout.zeroPadded 4 line.position ++ " " ++ marker ++ line.text ++ "\n"

/-- A line within the code; a marked one has a rule above it. -/
def Line.renderInside (line : Line) : String :=
  (if line.marked then separator else "") ++ line.render

/-- The listing of a program. -/
def render (t : SymbolTable) (p : Program) : String :=
  String.join ((lines t p).map fun line =>
    if line.position < p.size then line.renderInside else line.render)

end MacroMachine.Listing
