import MacroMachine.Machine.Step

/-!
# Slices

A macro runs in slices.  A slice ends when the macro returns or fails, when a routine asks for the
macro to be suspended, or when the instructions allowed for a slice are used up; a suspended macro
can be continued at any later time.

*Fuel.*  A macro may run for ever, so running it takes a bound on the number of instructions.  The
bound is shared with the macros that routines run; an answer does not depend on it, and there is
none if it is too small.
-/

namespace MacroMachine.Host

/-- Whether a slice of so many instructions is over. -/
def sliceOver (host : Host) (executed : Nat) : Bool :=
  match host.limits.instructionLimit with
  | some limit => limit ≤ executed
  | none => false

/-- Runs the rest of a slice in which some instructions were executed already. -/
def runSlice (host : Host) : (fuel executed : Nat) → Runner
  | 0, _, _, _ => none
  | fuel + 1, executed, world, context =>
    match Execution.step host (host.runSlice fuel 0) ⟨world, context⟩ with
    | .ok .next s =>
      if host.sliceOver (executed + 1) then
        some (.preempted s.context .instructionLimit, s.world)
      else
        host.runSlice fuel (executed + 1) s.world s.context
    | .ok .preempt s => some (.preempted s.context .requested, s.world)
    | .ok .done s =>
      match Context.pop s.context with
      | .ok value _ => some (.done value, s.world)
      | .error e _ => some (.failed e, s.world)
    | .error (.fault e) s => some (.failed e, s.world)
    | .error .unfinished _ => none

/-- Runs the next slice of a suspended macro. -/
def resume (host : Host) (fuel : Nat) : Runner :=
  host.runSlice fuel 0

/-- Starts a macro and runs its first slice. -/
def execute (host : Host) (fuel : Nat) (world : World) (program : ProgramRef)
    (arguments : List Value) (target : Option DocumentHandle) : Option (Status × World) :=
  match Context.start program arguments host.limits.stackSize target with
  | .ok context => host.resume fuel world context
  | .error e => some (.failed e, world)

/-- Resumes a macro until it is no longer suspended or has been resumed `slices` times.  Gives the
last status and how many slices were run. -/
def resumeWhile (host : Host) (fuel : Nat) : (slices : Nat) → Status → World →
    Option (Status × Nat × World)
  | slices + 1, .preempted context _, world =>
    match host.resume fuel world context with
    | some (status, world) =>
      (host.resumeWhile fuel slices status world).map fun (status, n, world) =>
        (status, n + 1, world)
    | none => none
  | _, status, world => some (status, 0, world)

/-- Starts a macro and resumes it while it is suspended, for at most `slices` further slices.  Gives
the last status and how many slices were run in all. -/
def drive (host : Host) (fuel slices : Nat) (world : World) (program : ProgramRef)
    (arguments : List Value) (target : Option DocumentHandle) : Option (Status × Nat × World) :=
  match host.execute fuel world program arguments target with
  | some (status, world) =>
    (host.resumeWhile fuel slices status world).map fun (status, n, world) => (status, n + 1, world)
  | none => none

end MacroMachine.Host
