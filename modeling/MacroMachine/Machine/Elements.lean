import MacroMachine.Machine.Variables

/-!
# Array elements and iteration

The index of an element lies on the stack above its array, the first dimension deepest.  An index of
several dimensions is one key, its parts joined by a separator that ordinary text does not contain.
-/

namespace MacroMachine

/-- The separator between the parts of a key. -/
def keySeparator : String := "\x1c"

/-- The text of one part of a key. -/
def Value.keyPart : Value → Except Mismatch String
  | .int n => .ok (Numeral.render n)
  | .text s => .ok s
  | _ => .error .badIndex

/-- The key that the parts of an index make. -/
def keyOf (parts : List Value) : Except Mismatch String :=
  (parts.mapM Value.keyPart).map keySeparator.intercalate

namespace Context

/-- The top `n` values, the deepest first. -/
def top (n : Nat) (c : Context) : Except Fault (List Value) :=
  if n ≤ c.stack.size then .ok (c.stack.extract (c.stack.size - n) c.stack.size).toList
  else .error .stackUnderflow

end Context

namespace Execution

/-- The key that the top `n` values make; they stay on the stack.  Where there are fewer values this
is an underflow for every `n`, also for one that no memory could hold. -/
def peekKey (n : Nat) : Execution String := do
  convert (keyOf (← view (Context.top n)))

/-- The key that the top `n` values make, taken off the stack. -/
def popKey (n : Nat) : Execution String := do
  let key ← peekKey n
  transition (Context.drop n)
  return key

/-- The container of a value that must be an array. -/
def container (use : ArrayUse) : Value → Execution ArrayRef
  | .array ref => pure ref
  | _ => raise (.notArray use)

/-- Takes an array off the stack. -/
def popArray (use : ArrayUse) : Execution ArrayRef := do
  container use (← pop)

/-- The value under a key. -/
def elementAt (ref : ArrayRef) (key : String) : Execution Value := do
  match ((← world).store.entries ref).get? key with
  | some value => return value
  | none => raise (.missingKey key)

/-- Takes an array off the stack and gives its size. -/
def popSize : Execution Value := do
  let ref ← popArray .index
  return .ofNat ((← world).store.entries ref).size

/-- Takes an index and its array off the stack and gives the element. -/
def popElement (dimensions : Nat) : Execution Value := do
  let key ← popKey dimensions
  let ref ← popArray .index
  elementAt ref key

/-- Puts an element of an array on the stack, or the size of the array if there is no index. -/
def element : Execution Outcome := do
  let dimensions ← transition Context.fetchCount
  let value ← if dimensions = 0 then popSize else popElement dimensions
  push value
  return .next

/-- Stores the top value as an element of an array. -/
def setElement : Execution Outcome := do
  let dimensions ← transition Context.fetchCount
  let value ← pop
  if dimensions = 0 then
    raise .emptyIndex
  else
    let key ← popKey dimensions
    let ref ← popArray .assign
    let copied ← withStore (·.copyForAssignment value)
    modifyStore (·.insert ref key copied)
    return .next

/-- Takes the top value off the stack if it is wanted. -/
def popIf (wanted : Bool) : Execution (Option Value) :=
  if wanted then some <$> pop else pure none

/-- Puts a value on the stack if there is one. -/
def push? : Option Value → Execution Unit
  | some v => push v
  | none => pure ()

/-- Prepares a change of an element: leaves the array and the index where they are and puts the
element on top of them, then the right operand again if there is one. -/
def prepareUpdate : Execution Outcome := do
  let binary := (← transition Context.fetchImmediate) != 0
  let dimensions ← transition Context.fetchCount
  let operand ← popIf binary
  if dimensions = 0 then
    raise (.notAssignable .emptyIndex)
  else
    let key ← peekKey dimensions
    let ref ← container .index (← view (Context.peek dimensions))
    push (← elementAt ref key)
    push? operand
    return .next

/-- Removes an element of an array, or all of them if there is no index. -/
def deleteElement : Execution Outcome := do
  let dimensions ← transition Context.fetchCount
  if dimensions = 0 then
    let ref ← popArray .delete
    modifyStore (·.clear ref)
    return .next
  else
    let key ← popKey dimensions
    let ref ← popArray .delete
    modifyStore (·.erase ref key)
    return .next

/-- Whether a container has a key, or all keys of another array. -/
def hasKeys (store : Store) (ref : ArrayRef) : Value → Except Mismatch Bool
  | .array keys => .ok ((store.entries keys).keys.all (store.entries ref).contains)
  | v => v.toText.map (store.entries ref).contains

/-- Tells whether an array has a key, or all keys of another array. -/
def membership : Execution Outcome := do
  let ref ← popArray .membership
  let left ← pop
  let found ← convert (hasKeys (← world).store ref left)
  push (.ofBool found)
  return .next

/-- Stores a new empty array in a variable. -/
def makeArray (place : Place) : Execution Value := do
  let ref ← withStore (·.alloc .empty)
  write place (.array ref)
  return .array ref

/-- The array of a variable; one without a value may get an empty array. -/
def arrayOf (id : SymbolId) (place : Place) (makeEmpty : Bool) : Execution Value := do
  let value ← read place
  if value.isUnset then
    if makeEmpty then makeArray place else raise (.unsetVariable (← symbolName id))
  else
    return value

/-- Puts the array of a variable on the stack. -/
def pushArray : Execution Outcome := do
  let id ← transition Context.fetchSymbol
  let makeEmpty := (← transition Context.fetchImmediate) != 0
  match ← place? id with
  | none => raise (.notAssignable (.arrayVariable (← symbolName id)))
  | some place =>
    push (← arrayOf id place makeEmpty)
    return .next

/-! ## Loops over the keys of an array -/

/-- Where the iterator of a loop lives; only variables of a frame hold iterators. -/
def iteratorPlace (id : SymbolId) : Execution Place := do
  let symbol ← symbol id
  match symbol.kind with
  | .frameLocal => return .frame (← ofExcept symbol.frameOffset)
  | _ => raise (.badIterator symbol.name)

/-- Starts a loop over the array on top of the stack. -/
def beginIteration : Execution Outcome := do
  let id ← transition Context.fetchSymbol
  let place ← iteratorPlace id
  let ref ← popArray .iterate
  write place (.iterator ((← world).store.iterate ref))
  return .next

/-- Goes on with a loop: binds its next key, or leaves it if there is none. -/
def bindKey (item : Place) (exit : Nat) : Option String → Execution Unit
  | some key => write item (.text key)
  | none => transition (Context.jump exit)

/-- Moves an iterator on and gives the key that it yields. -/
def advance (place : Place) (it : Iterator) : Execution (Option String) := do
  match it.next (← world).store with
  | .ok (key, it) =>
    write place (.iterator it)
    return key
  | .error key => raise (.iteratorLost key)

/-- Binds the next key of a loop, or leaves the loop once there is none. -/
def iterate : Execution Outcome := do
  let itemId ← transition Context.fetchSymbol
  let iteratorId ← transition Context.fetchSymbol
  let exit ← transition Context.fetchBranch
  match ← place? itemId with
  | none => raise (.notAssignable (.loopItem (← symbolName itemId)))
  | some item =>
    let place ← iteratorPlace iteratorId
    match ← read place with
    | .iterator it =>
      write item .unset
      bindKey item exit (← advance place it)
      return .next
    | _ => raise (.badIterator (← symbolName iteratorId))

end Execution

end MacroMachine
