import MacroMachine.Native
import MacroMachine.Value.Literal

/-!
# Scripted routines

A small vocabulary from which routines of the host can be put together.  A script is a list of
actions, carried out in order on a result that starts out as no value; the routine gives the result
that the last action leaves.  An action that fails ends the routine with its complaint.
-/

namespace MacroMachine

/-- One action of a scripted routine. -/
inductive Action where
  /-- The result is a newly made value. -/
  | give (literal : Literal)
  /-- The result is an argument. -/
  | giveArgument (index : Nat)
  /-- The result is the number of arguments. -/
  | countArguments
  /-- Complain unless there are `n` arguments. -/
  | expect (n : Nat)
  /-- The result is the sum of the arguments. -/
  | sum
  /-- The result is the arguments as texts, joined with a bar. -/
  | join
  /-- The result is the size of an array argument. -/
  | size (index : Nat)
  /-- Store a newly made value in an array argument. -/
  | put (index : Nat) (key : String) (literal : Literal)
  /-- Ask for the caller to be suspended. -/
  | preempt
  /-- The result is 1 if the caller will be suspended, else 0. -/
  | preempting
  /-- Change the focus document. -/
  | focus (target : Option DocumentHandle)
  /-- The result is a text that names both documents. -/
  | targets
  /-- Enter a program on the caller's behalf. -/
  | enter (program : ProgramRef)
  /-- Run a macro with the arguments of this call; the result is its value. -/
  | execute (program : ProgramRef)
  /-- The result is how often this routine has done this. -/
  | tick
  /-- Set the variable of a name, or install a global of that name. -/
  | setVariable (name : String) (literal : Literal)
  /-- The result is the value of the variable of a name, if there is one. -/
  | giveVariable (name : String)
  /-- Define a function. -/
  | define (name : String) (program : ProgramRef)
  /-- Complain. -/
  | fail (why : NativeError)
deriving DecidableEq, Repr, Inhabited

namespace Action

/-- The text of a document, or a dash for none. -/
def targetText : Option DocumentHandle → String
  | some target => toString target.number
  | none => "-"

/-- Makes a value and lets `store` put it into the world. -/
def making (literal : Literal) (store : World → Value → World) (w : World) : World :=
  let (v, w) := literal.make w
  store w v

/-- Sets the variable of a name, or installs a global of that name. -/
def setVariableTo (name : String) (w : World) (v : Value) : World :=
  match w.symbols.lookup? name with
  | some id => { w with symbols := w.symbols.setValue id v }
  | none => { w with symbols := (w.symbols.install name .global v).2 }

/-- What a routine says when a macro that it ran was suspended. -/
def preemptedText : PreemptReason → String
  | .instructionLimit => "nested macro preempted: limit"
  | .requested => "nested macro preempted: requested"

/-- Goes on with the result of a calculation, or fails. -/
def orFail {α : Type} (x : Except NativeError α) (next : α → Routine) : Routine :=
  match x with
  | .ok a => next a
  | .error e => .fail e

/-- The argument with an index. -/
def argument (arguments : List Value) (index : Nat) : Except NativeError Value :=
  match arguments[index]? with
  | some v => .ok v
  | none => .error .wrongArgumentCount

/-- The array argument with an index. -/
def arrayArgument (arguments : List Value) (index : Nat) : Except NativeError ArrayRef :=
  match argument arguments index with
  | .ok v => NativeArgument.array v
  | .error e => .error e

/-- What an action does in a call of `self` with some arguments; `next` goes on with the result. -/
def routine (self : NativeId) (arguments : List Value) (result : Value) (action : Action)
    (next : Value → Routine) : Routine :=
  match action with
  | .give literal =>
    .inspect fun seen =>
      let (v, w) := literal.make seen.world
      .update (fun _ => w) (next v)
  | .giveArgument index => orFail (argument arguments index) next
  | .countArguments => next (.ofNat arguments.length)
  | .expect n => orFail (NativeArgument.expectCount arguments n) fun _ => next result
  | .sum =>
    orFail (arguments.mapM NativeArgument.int) fun ns => next (.int (ns.foldl (· + ·) 0))
  | .join =>
    orFail (arguments.mapM NativeArgument.text) fun texts => next (.text ("|".intercalate texts))
  | .size index =>
    orFail (arrayArgument arguments index) fun ref =>
      .inspect fun seen => next (.ofNat (seen.world.store.entries ref).size)
  | .put index key literal =>
    orFail (arrayArgument arguments index) fun ref =>
      .update (making literal fun w v => { w with store := w.store.insert ref key v }) (next result)
  | .preempt => .requestPreemption (next result)
  | .preempting => .inspect fun seen => next (.ofBool seen.preempting)
  | .focus target => .setFocus target (next result)
  | .targets =>
    .inspect fun seen =>
      next (.text (targetText seen.runTarget ++ ":" ++ targetText seen.focusTarget))
  | .enter program =>
    .enter program fun
      | none => next result
      | some e => .inspect fun seen => .fail (.other (e.message seen.world.store))
  | .execute program =>
    .execute program arguments fun
      | .done v => next v
      | .failed e => .inspect fun seen => .fail (.other (e.message seen.world.store))
      | .preempted _ reason => .fail (.other (preemptedText reason))
  | .tick =>
    .update (·.tick self) (.inspect fun seen => next (.ofNat (seen.world.tally self)))
  | .setVariable name literal => .update (making literal (setVariableTo name)) (next result)
  | .giveVariable name =>
    .inspect fun seen =>
      let symbols := seen.world.symbols
      next (((symbols.lookup? name).bind symbols.get?).elim .unset Symbol.value)
  | .define name program =>
    .update (fun w => { w with symbols := (w.symbols.defineFunction name program).2 }) (next result)
  | .fail why => .fail why

end Action

/-- The routine that carries out a script. -/
def scriptRoutine (self : NativeId) (arguments : List Value) : Value → List Action → Routine
  | result, [] => .finish (.ok result)
  | result, action :: rest =>
    action.routine self arguments result fun result => scriptRoutine self arguments result rest

end MacroMachine
