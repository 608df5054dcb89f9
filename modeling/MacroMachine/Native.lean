import MacroMachine.World

/-!
# Routines of the host

A macro can call routines that the host provides.  While it runs, a routine sees the shared world
and the documents of its caller, and it can change the world, change the focus document, ask that
its caller be suspended, enter programs on its caller's behalf, and run other macros to their end
or to their suspension.

A routine is the tree of what it asks for: each request carries what the routine does with the
answer.  Nothing else about a routine matters to the machine, and any behaviour that such requests
can express is a routine.
-/

namespace MacroMachine

/-- Why a macro was suspended. -/
inductive PreemptReason where
  /-- The instructions allowed for one slice are used up. -/
  | instructionLimit
  /-- A routine of the host asked for it. -/
  | requested
deriving DecidableEq, Repr, Inhabited

/-- What came of running a macro for one slice. -/
inductive Status where
  /-- It returned this value. -/
  | done (value : Value)
  /-- It can be continued from this context. -/
  | preempted (context : Context) (reason : PreemptReason)
  | failed (fault : Fault)
deriving DecidableEq, Repr, Inhabited

/-- What a routine can see while it runs. -/
structure CallView where
  world : World
  runTarget : Option DocumentHandle
  focusTarget : Option DocumentHandle
  /-- Whether the routine has asked for its caller to be suspended. -/
  preempting : Bool

/-- What a routine of the host does. -/
inductive Routine where
  /-- Come back to the caller, with a result or a complaint. -/
  | finish (result : Except NativeError Value)
  /-- Look at the world and the documents. -/
  | inspect (next : CallView → Routine)
  /-- Change the world. -/
  | update (change : World → World) (next : Routine)
  /-- Change the focus document of the caller. -/
  | setFocus (target : Option DocumentHandle) (next : Routine)
  /-- Suspend the caller once this call is over. -/
  | requestPreemption (next : Routine)
  /-- Enter a program as if the caller had called it without arguments; the answer is the fault that
  prevented it. -/
  | enter (program : ProgramRef) (next : Option Fault → Routine)
  /-- Run a macro for one slice in a context of its own, for the focus document. -/
  | execute (program : ProgramRef) (arguments : List Value) (next : Status → Routine)

namespace Routine

/-- A routine that does nothing and has no result. -/
def idle : Routine :=
  .finish (.ok .unset)

/-- A routine that fails. -/
def fail (e : NativeError) : Routine :=
  .finish (.error e)

end Routine

/-! ## Arguments of routines -/

namespace NativeArgument

/-- Complains unless there are exactly `n` arguments. -/
def expectCount (arguments : List Value) (n : Nat) : Except NativeError Unit :=
  if n < arguments.length then .error .tooManyArguments
  else if arguments.length ≠ n then .error .wrongArgumentCount
  else .ok ()

/-- An argument that stands for a number. -/
def int (v : Value) : Except NativeError Int32 :=
  match v.toInt with
  | .ok n => .ok n
  | .error _ => .error .notAnInteger

/-- An argument that stands for a text. -/
def text (v : Value) : Except NativeError String :=
  match v.toText with
  | .ok s => .ok s
  | .error _ => .error .notAText

/-- An argument that is an array. -/
def array (v : Value) : Except NativeError ArrayRef :=
  match v.asArray with
  | .ok ref => .ok ref
  | .error _ => .error .notAnArray

end NativeArgument

end MacroMachine
