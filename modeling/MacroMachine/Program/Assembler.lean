import MacroMachine.SymbolTable

/-!
# The assembler

An assembler collects the slots of a program one after the other.

*Branches.*  A branch operand holds the distance from its own slot to its target.  An operand may be
added before its target is known; it can be patched later, and one that never is leads to the end of
the program.

*Loops.*  While a loop is open, branch operands can be registered as leaving it or as going on with
it.  Closing the loop patches all of them.  The open loops form a stack, the innermost on top; each
begins with a marker.

*Failures.*  An operation that may fail is an `Assembly`, which says what assembler the failure
leaves behind.
-/

namespace MacroMachine

/-- Why an assembler refuses an operation. -/
inductive AssemblyError where
  | programTooLarge
  | loopStackOverflow
  | breakOutsideLoop
  | continueOutsideLoop
  | loopStackUnderflow
  /-- The slot is no branch operand. -/
  | notBranchSite (site : Nat)
deriving DecidableEq, Repr, Inhabited

/-- The text of a refused operation. -/
def AssemblyError.message : AssemblyError → String
  | .programTooLarge => "macro too large"
  | .loopStackOverflow => "loop nesting too deep"
  | .breakOutsideLoop => "break statement outside of a loop"
  | .continueOutsideLoop => "continue statement outside of a loop"
  | .loopStackUnderflow => "loop stack underflow: no loop to close"
  | .notBranchSite site => "slot " ++ toString site ++ " is not a branch offset"

/-- The sizes that an assembler allows. -/
structure AssemblerLimits where
  /-- The largest number of slots of a program. -/
  programSize : Nat := 4096
  /-- The largest number of markers and registered operands of open loops. -/
  loopStackSize : Nat := 200
deriving DecidableEq, Repr, Inhabited

/-- An entry of the stack of open loops. -/
inductive LoopEntry where
  /-- Below this begins the loop around it. -/
  | marker
  /-- A branch operand that leaves the loop. -/
  | breakSite (site : Nat)
  /-- A branch operand that goes on with the loop. -/
  | continueSite (site : Nat)
deriving DecidableEq, Repr, Inhabited

/-- An entry of the loop stack after its branch operand has moved. -/
def LoopEntry.relocate (move : Nat → Nat) : LoopEntry → LoopEntry
  | .marker => .marker
  | .breakSite site => .breakSite (move site)
  | .continueSite site => .continueSite (move site)

/-- A program under construction. -/
structure Assembler where
  limits : AssemblerLimits
  code : Array Instruction
  /-- Branch operands without a target, newest first. -/
  pending : List Nat
  /-- The open loops, innermost first. -/
  loops : List LoopEntry
deriving DecidableEq, Repr, Inhabited

/-- An operation on an assembler that may fail. -/
abbrev Assembly (α : Type) := EStateM AssemblyError Assembler α

namespace Assembler

/-- An assembler that holds nothing yet. -/
def new (limits : AssemblerLimits) : Assembler :=
  { limits, code := #[], pending := [], loops := [] }

/-- Begins a new program: drops what was collected, and the local scope. -/
def begin (a : Assembler) (t : SymbolTable) : Assembler × SymbolTable :=
  (new a.limits, t.clearLocals)

/-- The position of the next slot. -/
def position (a : Assembler) : Nat :=
  a.code.size

/-- The distance from a branch operand to its target. -/
def relative (site target : Nat) : Int64 :=
  Int64.ofInt ((target : Int) - (site : Int))

/-! ## Slots -/

/-- Adds a slot and gives its position. -/
def emit (slot : Instruction) : Assembly Nat := fun a =>
  if a.limits.programSize ≤ a.code.size then .error .programTooLarge a
  else .ok a.code.size { a with code := a.code.push slot }

/-- Adds an opcode. -/
def emitOpcode (opcode : Opcode) : Assembly Nat :=
  emit (.op opcode)

/-- Adds a symbol operand. -/
def emitSymbol (id : SymbolId) : Assembly Nat :=
  emit (.symbol id)

/-- Adds an immediate operand. -/
def emitImmediate (n : Int64) : Assembly Nat :=
  emit (.immediate n)

/-- Adds a branch operand, with its target or open. -/
def emitBranch : Option Nat → Assembly Nat
  | some target => fun a => emit (.immediate (relative a.position target)) a
  | none => fun a =>
    match emit (.immediate 0) a with
    | .ok site a => .ok site { a with pending := site :: a.pending }
    | .error e a => .error e a

/-- Whether a slot can be a branch operand. -/
def isBranchSite (a : Assembler) (site : Nat) : Bool :=
  match a.code[site]? with
  | some (.immediate _) => true
  | _ => false

/-- Makes a branch operand lead to a target. -/
def patch (site target : Nat) : Assembly Unit := fun a =>
  if a.isBranchSite site then
    .ok () { a with
      code := a.code.setIfInBounds site (.immediate (relative site target))
      pending := a.pending.filter (· != site) }
  else .error (.notBranchSite site) a

/-! ## Blocks -/

/-- Where a slot is after the blocks `start … boundary` and `boundary … stop` have changed places.
-/
def relocate (start boundary stop site : Nat) : Nat :=
  if start ≤ site ∧ site < boundary then site + (stop - boundary)
  else if boundary ≤ site ∧ site < stop then site - (boundary - start)
  else site

/-- Lets two neighbouring blocks change places.  Open operands and registered ones move along; the
distances in the moved slots stay as they are.  Blocks that are none change nothing. -/
def swapBlocks (start boundary stop : Nat) (a : Assembler) : Assembler :=
  if start ≤ boundary ∧ boundary ≤ stop ∧ stop ≤ a.code.size then
    { a with
      code := a.code.extract 0 start ++ a.code.extract boundary stop ++
        a.code.extract start boundary ++ a.code.extract stop a.code.size
      pending := a.pending.map (relocate start boundary stop)
      loops := a.loops.map (LoopEntry.relocate (relocate start boundary stop)) }
  else a

/-! ## Loops -/

/-- Puts an entry on the stack of open loops. -/
def pushLoopEntry (entry : LoopEntry) : Assembly Unit := fun a =>
  if a.limits.loopStackSize ≤ a.loops.length then .error .loopStackOverflow a
  else .ok () { a with loops := entry :: a.loops }

/-- Opens a loop. -/
def openLoop : Assembly Unit :=
  pushLoopEntry .marker

/-- Registers a branch operand as leaving the innermost loop. -/
def addBreak (site : Nat) : Assembly Unit := fun a =>
  if a.loops.isEmpty then .error .breakOutsideLoop a
  else if a.isBranchSite site then pushLoopEntry (.breakSite site) a
  else .error (.notBranchSite site) a

/-- Registers a branch operand as going on with the innermost loop. -/
def addContinue (site : Nat) : Assembly Unit := fun a =>
  if a.loops.isEmpty then .error .continueOutsideLoop a
  else if a.isBranchSite site then pushLoopEntry (.continueSite site) a
  else .error (.notBranchSite site) a

/-- Patches the registered operands of the innermost loop, given the stack of open loops. -/
def closeEntries (breakTarget continueTarget : Nat) : List LoopEntry → Assembly Unit
  | [], a => .error .loopStackUnderflow { a with loops := [] }
  | .marker :: rest, a => .ok () { a with loops := rest }
  | .breakSite site :: rest, a =>
    match patch site breakTarget { a with loops := rest } with
    | .ok () a => closeEntries breakTarget continueTarget rest a
    | .error e a => .error e a
  | .continueSite site :: rest, a =>
    match patch site continueTarget { a with loops := rest } with
    | .ok () a => closeEntries breakTarget continueTarget rest a
    | .error e a => .error e a

/-- Closes the innermost loop, patching its registered operands. -/
def closeLoop (breakTarget continueTarget : Nat) : Assembly Unit := fun a =>
  closeEntries breakTarget continueTarget a.loops a

/-! ## The finished program -/

/-- The code with every open operand leading to its end. -/
def resolvedCode (a : Assembler) : Array Instruction :=
  a.pending.foldl
    (fun code site => code.setIfInBounds site (.immediate (relative site a.code.size))) a.code

/-- Gives each local variable its place in the frame as its value. -/
def placeLocals (locals : List SymbolId) (t : SymbolTable) : SymbolTable :=
  locals.zipIdx.foldl (fun t (id, offset) => t.setValue id (.ofNat offset)) t

/-- Finishes the program.  The local scope becomes the layout of its frames. -/
def finish (a : Assembler) (t : SymbolTable) : Program × Assembler × SymbolTable :=
  let locals := t.declaredLocals
  ({ code := a.resolvedCode, locals }, new a.limits, placeLocals locals t.clearLocals)

end Assembler

end MacroMachine
