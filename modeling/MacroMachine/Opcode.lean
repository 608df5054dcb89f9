/-!
# Opcodes

The 43 instructions of the machine, what operand slots follow each of them in the code, and their
three spellings: the mnemonic of listings, the short name that messages show, and the number that
stands for them in a program image.  Stack effects are written ( before -- after ) with the top of
the stack on the right; operand slots are written in backticks.
-/

namespace MacroMachine

/-- An instruction of the machine, without its operands. -/
inductive Opcode where
  /-- Leave the current frame without a value. -/
  | returnNothing
  /-- Stack effect ( value -- ) Leave the current frame with a value. -/
  | returnValue
  /-- Operands `sym` ( -- value ) -/
  | pushSymbol
  /-- Stack effect ( a -- a a ) -/
  | duplicate
  /-- Operands `sym` ( value -- ) Arrays are copied one level deep. -/
  | assign
  /-- Stack effect ( a b -- a + b ) Sum, or union of two arrays. -/
  | add
  /-- Stack effect ( a b -- a - b ) Difference, of numbers or of two arrays. -/
  | subtract
  /-- Stack effect ( a b -- a * b ) -/
  | multiply
  /-- Stack effect ( a b -- a / b ) Rounds toward zero. -/
  | divide
  /-- Stack effect ( a b -- a % b ) Takes the sign of `a`. -/
  | remainder
  /-- Stack effect ( a -- -a ) -/
  | negate
  /-- Stack effect ( a -- a + 1 ) -/
  | increment
  /-- Stack effect ( a -- a - 1 ) -/
  | decrement
  /-- Stack effect ( a b -- a ^ b ) -/
  | power
  /-- Stack effect ( a b -- a > b ) Comparisons and logic give 0 or 1. -/
  | greater
  /-- Stack effect ( a b -- a < b ) -/
  | less
  /-- Stack effect ( a b -- a >= b ) -/
  | greaterEqual
  /-- Stack effect ( a b -- a <= b ) -/
  | lessEqual
  /-- Stack effect ( a b -- a = b ) Compares numbers and texts. -/
  | equal
  /-- Stack effect ( a b -- a ≠ b ) -/
  | notEqual
  /-- Stack effect ( a b -- a & b ) Bitwise, or intersection of two arrays. -/
  | bitAnd
  /-- Stack effect ( a b -- a | b ) Bitwise, or union of two arrays. -/
  | bitOr
  /-- Stack effect ( a b -- a and b ) -/
  | and
  /-- Stack effect ( a b -- a or b ) -/
  | or
  /-- Stack effect ( a -- not a ) -/
  | not
  /-- Stack effect ( a b -- ab ) Joins two texts. -/
  | concat
  /-- Operands `sym n` ( args -- ) Call a native routine or a macro function with `n` arguments. -/
  | call
  /-- Marker after a call: its result is wanted on the stack.  Never carried out on its own. -/
  | fetchResult
  /-- Operands `off` Branch offsets count from the operand slot itself. -/
  | branch
  /-- Operands `off` ( condition -- ) -/
  | branchTrue
  /-- Operands `off` ( condition -- ) -/
  | branchFalse
  /-- Operands `off` Never taken; keeps a slot that can be patched. -/
  | branchNever
  /-- Operands `n` ( array keys -- value ), or ( array -- size ) for no keys. -/
  | element
  /-- Operands `n` ( array keys value -- ) -/
  | setElement
  /-- Operands `iter` ( array -- ) -/
  | beginIteration
  /-- Operands `item iter off` Bind the next key, or branch once there is none. -/
  | iterate
  /-- Stack effect ( key array -- flag ) or ( keys array -- flag ) -/
  | contains
  /-- Operands `n` ( array keys -- ) No keys empty the array. -/
  | deleteElement
  /-- Operands `sym make` ( -- array ) May create the array. -/
  | pushArray
  /-- Operands `binary n` ( array keys [rhs] -- array keys value [rhs] ) -/
  | prepareUpdate
  /-- Stack effect ( n -- argument ) Counts from 1. -/
  | pushArgument
  /-- Stack effect ( -- count ) -/
  | pushArgumentCount
  /-- Stack effect ( -- array ) The arguments of the frame as an array. -/
  | pushArgumentArray
deriving DecidableEq, Repr, Inhabited

/-- What an operand slot holds. -/
inductive OperandKind where
  /-- A symbol of the symbol table. -/
  | symbol
  /-- A count or a flag. -/
  | immediate
  /-- A distance to another slot, counted from the operand slot itself. -/
  | branchOffset
deriving DecidableEq, Repr, Inhabited

namespace Opcode

/-- The operand slots that follow an opcode, in order. -/
def operands : Opcode → List OperandKind
  | .pushSymbol | .assign | .beginIteration => [.symbol]
  | .call | .pushArray => [.symbol, .immediate]
  | .branch | .branchTrue | .branchFalse | .branchNever => [.branchOffset]
  | .element | .setElement | .deleteElement => [.immediate]
  | .prepareUpdate => [.immediate, .immediate]
  | .iterate => [.symbol, .symbol, .branchOffset]
  | _ => []

/-- How many operand slots follow an opcode. -/
def operandCount (op : Opcode) : Nat :=
  op.operands.length

/-- The word that stands for an opcode in listings. -/
def mnemonic : Opcode → String
  | .returnNothing => "RETURN_NO_VAL"
  | .returnValue => "RETURN"
  | .pushSymbol => "PUSH_SYM"
  | .duplicate => "DUP"
  | .assign => "ASSIGN"
  | .add => "ADD"
  | .subtract => "SUB"
  | .multiply => "MUL"
  | .divide => "DIV"
  | .remainder => "MOD"
  | .negate => "NEGATE"
  | .increment => "INCR"
  | .decrement => "DECR"
  | .power => "POWER"
  | .greater => "GT"
  | .less => "LT"
  | .greaterEqual => "GE"
  | .lessEqual => "LE"
  | .equal => "EQ"
  | .notEqual => "NE"
  | .bitAnd => "BIT_AND"
  | .bitOr => "BIT_OR"
  | .and => "AND"
  | .or => "OR"
  | .not => "NOT"
  | .concat => "CONCAT"
  | .call => "SUBR_CALL"
  | .fetchResult => "FETCH_RET_VAL"
  | .branch => "BRANCH"
  | .branchTrue => "BRANCH_TRUE"
  | .branchFalse => "BRANCH_FALSE"
  | .branchNever => "BRANCH_NEVER"
  | .element => "ARRAY_REF"
  | .setElement => "ARRAY_ASSIGN"
  | .beginIteration => "BEGIN_ARRAY_ITER"
  | .iterate => "ARRAY_ITER"
  | .contains => "IN_ARRAY"
  | .deleteElement => "ARRAY_DELETE"
  | .pushArray => "PUSH_ARRAY_SYM"
  | .prepareUpdate => "ARRAY_REF_ASSIGN_SETUP"
  | .pushArgument => "PUSH_ARG"
  | .pushArgumentCount => "PUSH_ARG_COUNT"
  | .pushArgumentArray => "PUSH_ARG_ARRAY"

/-- The short name that messages about misplaced slots show. -/
def shortName : Opcode → String
  | .returnNothing => "ReturnNoVal"
  | .returnValue => "Return"
  | .pushSymbol => "PushSym"
  | .duplicate => "Dup"
  | .assign => "Assign"
  | .add => "Add"
  | .subtract => "Sub"
  | .multiply => "Mul"
  | .divide => "Div"
  | .remainder => "Mod"
  | .negate => "Negate"
  | .increment => "Incr"
  | .decrement => "Decr"
  | .power => "Power"
  | .greater => "Gt"
  | .less => "Lt"
  | .greaterEqual => "Ge"
  | .lessEqual => "Le"
  | .equal => "Eq"
  | .notEqual => "Ne"
  | .bitAnd => "BitAnd"
  | .bitOr => "BitOr"
  | .and => "And"
  | .or => "Or"
  | .not => "Not"
  | .concat => "Concat"
  | .call => "SubrCall"
  | .fetchResult => "FetchRetVal"
  | .branch => "Branch"
  | .branchTrue => "BranchTrue"
  | .branchFalse => "BranchFalse"
  | .branchNever => "BranchNever"
  | .element => "ArrayRef"
  | .setElement => "ArrayAssign"
  | .beginIteration => "BeginArrayIter"
  | .iterate => "ArrayIter"
  | .contains => "InArray"
  | .deleteElement => "ArrayDelete"
  | .pushArray => "PushArraySym"
  | .prepareUpdate => "ArrayRefAssignSetup"
  | .pushArgument => "PushArg"
  | .pushArgumentCount => "PushArgCount"
  | .pushArgumentArray => "PushArgArray"

/-- Every opcode, at the place that is its number in a program image. -/
def byNumber : List Opcode :=
  [ .returnNothing, .returnValue, .pushSymbol, .duplicate, .assign, .add, .subtract, .multiply,
    .divide, .remainder, .negate, .increment, .decrement, .power, .greater, .less, .greaterEqual,
    .lessEqual, .equal, .notEqual, .bitAnd, .bitOr, .and, .or, .not, .concat, .call,
    .fetchResult, .branch, .branchTrue, .branchFalse, .branchNever, .element, .setElement,
    .beginIteration, .iterate, .contains, .deleteElement, .pushArray, .prepareUpdate,
    .pushArgument, .pushArgumentCount, .pushArgumentArray ]

/-- Every opcode, in the order in which the instruction set is documented. -/
def catalogue : List Opcode :=
  [ .returnNothing, .returnValue, .pushSymbol, .duplicate, .add, .subtract, .multiply, .divide,
    .remainder, .negate, .increment, .decrement, .greater, .less, .greaterEqual, .lessEqual,
    .equal, .notEqual, .bitAnd, .bitOr, .and, .or, .not, .power, .concat, .assign, .call,
    .fetchResult, .branch, .branchTrue, .branchFalse, .branchNever, .element, .setElement,
    .beginIteration, .iterate, .contains, .deleteElement, .pushArray, .prepareUpdate,
    .pushArgument, .pushArgumentCount, .pushArgumentArray ]

/-- The number that stands for an opcode in a program image. -/
def number (op : Opcode) : Nat :=
  byNumber.idxOf op

/-- The opcode with a given image number. -/
def ofNumber? (n : Nat) : Option Opcode :=
  byNumber[n]?

/-- The opcode with a given mnemonic. -/
def ofMnemonic? (word : String) : Option Opcode :=
  byNumber.find? (·.mnemonic == word)

/-- Image numbers identify opcodes. -/
theorem ofNumber?_number (op : Opcode) : ofNumber? op.number = some op := by
  cases op <;> decide

/-- No opcode has a number of 43 or more. -/
theorem ofNumber?_eq_none_iff (n : Nat) : ofNumber? n = none ↔ 43 ≤ n := by
  simp [ofNumber?, byNumber]

/-- The catalogue lists every opcode. -/
theorem mem_catalogue (op : Opcode) : op ∈ catalogue := by
  cases op <;> decide

end Opcode

end MacroMachine
