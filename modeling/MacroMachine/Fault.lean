import MacroMachine.Value.Describe

/-!
# Faults

A fault ends the macro that raised it.  Faults are causes; their wording is in one place, `message`,
and needs the store because a damaged frame is shown with the value that was found in it.

*Defects.*  A fault of the last sort, `malformed`, means that the code itself or the bookkeeping on
the stack is not as it should be.  Code that an assembler produced and that leaves its frame alone
raises none of them.
-/

namespace MacroMachine

/-- What a routine of the host complains about. -/
inductive NativeError where
  | tooManyArguments
  | wrongArgumentCount
  | notAnInteger
  | notAText
  | notAnArray
  | other (text : String)
deriving DecidableEq, Repr

/-- The text of a routine's complaint. -/
def NativeError.message : NativeError → String
  | .tooManyArguments => "too many arguments"
  | .wrongArgumentCount => "wrong number of arguments"
  | .notAnInteger => "argument is not an integer"
  | .notAText => "argument is not a string"
  | .notAnArray => "argument is not an array"
  | .other text => text

/-- Why a symbol or an expression cannot be assigned to. -/
inductive NotAssignable where
  /-- Arguments are read-only. -/
  | argument (name : String)
  /-- Computed variables are read-only. -/
  | property (name : String)
  /-- The symbol is no variable. -/
  | notVariable (name : String)
  /-- The symbol cannot take the keys of a loop. -/
  | loopItem (name : String)
  /-- The symbol cannot hold an array. -/
  | arrayVariable (name : String)
  /-- An element needs an index. -/
  | emptyIndex
deriving DecidableEq, Repr

/-- The text of a refused assignment. -/
def NotAssignable.message : NotAssignable → String
  | .argument name => "assignment to function argument: " ++ name
  | .property name => "assignment to read-only variable: " ++ name
  | .notVariable name => "assignment to non-variable: " ++ name
  | .loopItem name => "can't assign to: " ++ name
  | .arrayVariable name => "assigning to non-lvalue array or non-array: " ++ name
  | .emptyIndex => "array[] not an lvalue"

/-- What an array was needed for. -/
inductive ArrayUse where
  | index | assign | iterate | membership | delete
deriving DecidableEq, Repr

/-- The text of a use that found no array. -/
def ArrayUse.message : ArrayUse → String
  | .index => "operator [] on non-array"
  | .assign => "cannot assign array element of non-array"
  | .iterate => "can't iterate non-array"
  | .membership => "operator in on non-array"
  | .delete => "attempt to delete from non-array"

/-- The bookkeeping slots of a frame that must hold a value of one kind. -/
inductive FrameSlot where
  | argumentCount | savedFrame | savedAddress
deriving DecidableEq, Repr

/-- What messages call a bookkeeping slot. -/
def FrameSlot.name : FrameSlot → String
  | .argumentCount => "argument count"
  | .savedFrame => "frame pointer"
  | .savedAddress => "return address"

/-- What is wrong with the code or with a frame. -/
inductive Defect where
  /-- An operand stands where an opcode is expected. -/
  | operandForOpcode (found : Instruction) (position : Nat)
  | symbolExpected (position : Nat) (found : Option Instruction)
  | immediateExpected (position : Nat) (found : Option Instruction)
  | negativeCount (n : Int64)
  | branchOutOfRange (site : Nat)
  | strayFetch
  | noFrame
  | corruptSlot (slot : FrameSlot) (found : Value)
  | argumentOutOfFrame (index count : Nat)
  | localOutsideFrame (offset : Nat)
  | frameBelowStack
  | unknownSymbol (id : SymbolId)
  | noFrameOffset (name : String)
  | noAccessor (name : String)
deriving DecidableEq, Repr

/-- The text of a defect. -/
def Defect.message (store : Store) : Defect → String
  | .operandForOpcode found position =>
    "operand " ++ found.describe ++ " where an instruction was expected at " ++ toString position
  | .symbolExpected position found =>
    "expected symbol operand at " ++ toString position ++ ", found " ++ Instruction.describe? found
  | .immediateExpected position found =>
    "expected immediate operand at " ++ toString position ++ ", found " ++
      Instruction.describe? found
  | .negativeCount n => "negative count " ++ toString n.toInt
  | .branchOutOfRange site => "branch from " ++ toString site ++ " out of range"
  | .strayFetch => "stray fetch-return-value marker"
  | .noFrame => "no call frame"
  | .corruptSlot slot found => "corrupt " ++ slot.name ++ " slot: " ++ store.describe found
  | .argumentOutOfFrame index count =>
    "argument " ++ toString index ++ " of " ++ toString count ++ " out of frame"
  | .localOutsideFrame offset => "local slot " ++ toString offset ++ " outside frame"
  | .frameBelowStack => "call frame below stack base"
  | .unknownSymbol id => "unknown symbol " ++ id.describe
  | .noFrameOffset name => "local " ++ name ++ " has no frame offset"
  | .noAccessor name => "property " ++ name ++ " has no accessor"

/-- Why a macro fails. -/
inductive Fault where
  | stackOverflow
  | stackUnderflow
  | mismatch (why : Mismatch)
  | unsetVariable (name : String)
  | undefinedArgument (name : String)
  | divisionByZero
  | remainderByZero
  | notCallable (name : String)
  | notAssignable (why : NotAssignable)
  | notArray (use : ArrayUse)
  | missingKey (key : String)
  /-- A routine of the host, called by this name, failed. -/
  | nativeFailed (name : String) (why : NativeError)
  /-- The result of a routine is wanted, and it gave none. -/
  | noResult (name : String)
  /-- The result of a function is wanted, and it returned without one. -/
  | missingResult (name : String)
  /-- The key that an iterator names was deleted. -/
  | iteratorLost (key : String)
  | badIterator (name : String)
  | emptyIndex
  | powerOutOfRange
  | malformed (defect : Defect)
deriving DecidableEq, Repr

/-- The text of a fault. -/
def Fault.message (store : Store) : Fault → String
  | .stackOverflow => "macro stack overflow"
  | .stackUnderflow => "macro stack underflow"
  | .mismatch why => why.message
  | .unsetVariable name => "variable not set: " ++ name
  | .undefinedArgument name => "referenced undefined argument: " ++ name
  | .divisionByZero => "division by zero"
  | .remainderByZero => "modulo by zero"
  | .notCallable name => name ++ " is not a function or subroutine"
  | .notAssignable why => why.message
  | .notArray use => use.message
  | .missingKey key => "referenced array value not in array: " ++ key
  | .nativeFailed name why => name ++ ": " ++ why.message
  | .noResult name => name ++ " does not return a value"
  | .missingResult name => "using return value of " ++ name ++ " which does not return a value"
  | .iteratorLost key => "array iterator invalidated: entry " ++ Quoted.quote key ++ " was deleted"
  | .badIterator name => "bad temporary iterator: " ++ name
  | .emptyIndex => "empty operator []"
  | .powerOutOfRange => "exponentiation result out of range"
  | .malformed defect => "internal error: " ++ defect.message store

end MacroMachine
