import MacroMachine.Machine.Variables

/-!
# Calls and returns

A call of a function makes a new frame over its arguments.  A call of a routine of the host takes
the arguments off the stack and lets the routine run at once.  In both cases a marker after the
call asks for the result; without the marker a result is dropped.
-/

namespace MacroMachine.Execution

/-- Carries out what a routine asks for.  Gives how it finished and whether it asked for its
caller to be suspended. -/
def perform (host : Host) (nested : Runner) (preempting : Bool) :
    Routine → Execution (Except NativeError Value × Bool)
  | .finish result => pure (result, preempting)
  | .inspect next => fun s =>
    perform host nested preempting
      (next { world := s.world, runTarget := s.context.runTarget
              focusTarget := s.context.focusTarget, preempting }) s
  | .update change next => fun ⟨world, context⟩ =>
    perform host nested preempting next ⟨change world, context⟩
  | .setFocus target next => fun ⟨world, context⟩ =>
    perform host nested preempting next ⟨world, context.setFocus target⟩
  | .requestPreemption next => perform host nested true next
  | .enter program next => fun ⟨world, context⟩ =>
    match Context.enter 0 program context with
    | .ok () context => perform host nested preempting (next none) ⟨world, context⟩
    | .error e context => perform host nested preempting (next (some e)) ⟨world, context⟩
  | .execute program arguments next => fun ⟨world, context⟩ =>
    match Context.start program arguments host.limits.stackSize context.focusTarget with
    | .error e => perform host nested preempting (next (.failed e)) ⟨world, context⟩
    | .ok inner =>
      match nested world inner with
      | some (status, world) => perform host nested preempting (next status) ⟨world, context⟩
      | none => .error .unfinished ⟨world, context⟩

/-- Calls a routine of the host under the name of a symbol. -/
def invoke (host : Host) (nested : Runner) : Caller := fun symbol routine arguments => do
  modifyWorld fun w =>
    { w with calls := w.calls.push { routine, arguments, store := w.store } }
  match ← perform host nested false (host.routine routine arguments) with
  | (.ok result, preempting) => return (result, preempting)
  | (.error why, _) => raise (.nativeFailed (← symbolName symbol) why)

/-- Hands the result of a routine to its caller if the caller wants it. -/
def deliver (id : SymbolId) (result : Value) : Execution Unit := do
  if (← context).nextIs .fetchResult then
    if result.isUnset then
      raise (.noResult (← symbolName id))
    else
      push result
      transition Context.skip
  else
    pure ()

/-- Calls a function or a routine with arguments from the stack. -/
def call (invoke : Caller) : Execution Outcome := do
  let id ← transition Context.fetchSymbol
  let count ← transition Context.fetchCount
  let symbol ← symbol id
  match symbol.kind, symbol.value with
  | .native, .native routine =>
    let arguments ← transition (Context.popMany count)
    let (result, preempting) ← invoke id routine arguments
    deliver id result
    return if preempting then .preempt else .next
  | .function, .program program =>
    transition (Context.enter count program)
    return .next
  | _, _ => raise (.notCallable symbol.name)

/-- Who is named at the call that the context has just returned to. -/
def callee (symbols : SymbolTable) (c : Context) : String :=
  match c.pc.slotBefore? 2 with
  | some (.symbol id) => symbols.name id
  | _ => "<unknown>"

/-- Hands the value of a function to its caller if the caller wants it. -/
def handOver (value : Option Value) : Execution Unit := do
  if (← context).nextIs .fetchResult then
    match value with
    | some value =>
      push value
      transition Context.skip
    | none => raise (.missingResult (callee (← world).symbols (← context)))
  else
    pure ()

/-- Leaves the current frame.  The outermost frame leaves its value on the stack; any other hands it
to the caller if the caller wants it. -/
def leave (value : Option Value) : Execution Outcome := do
  match ← transition Context.popFrame with
  | none =>
    push (value.getD .unset)
    return .done
  | some _ =>
    handOver value
    return .next

/-- Returns from the current frame with the top value. -/
def returnValue : Execution Outcome := do
  leave (some (← pop))

/-- Returns from the current frame without a value. -/
def returnNothing : Execution Outcome :=
  leave none

end MacroMachine.Execution
