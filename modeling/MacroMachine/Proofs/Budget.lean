import MacroMachine.Proofs.Runs

/-!
# The instruction limit does not matter

A host cuts a macro into slices and resumes it whenever it is suspended.  Where the cuts fall is
decided by the instruction limit.  This module says that nothing else is: the instructions, the
outcome and the world that the macro leaves behind are the same under every limit.

*Solitary hosts.*  A routine that runs a macro of its own sees whether that macro was cut.  So the
routines must not do that (`Routine.Solitary`).  Then an instruction knows neither the limit nor how
macros are run (`Execution.step_withLimit`).

*Stages.*  A macro that never ends has no last status, yet it executes the same instructions under
every limit.  So the drive of a macro is taken apart into single instructions: a `Stage` says how
far it has come, and `Host.tick` goes on by one instruction, over the end of a slice if there is
one.  `Host.drive_iff_ended` says that this is the drive.  Under two limits the stages differ in
their counters alone (`Stage.Alike`).
-/

namespace MacroMachine

/-- The routine runs no macro, whatever the answers to its requests are. -/
def Routine.Solitary : Routine → Prop
  | .finish _ => True
  | .inspect next => ∀ view, (next view).Solitary
  | .update _ next => next.Solitary
  | .setFocus _ next => next.Solitary
  | .requestPreemption next => next.Solitary
  | .enter _ next => ∀ answer, (next answer).Solitary
  | .execute _ _ _ => False

namespace Host

/-- No routine of the host runs a macro. -/
def Solitary (host : Host) : Prop :=
  ∀ routine arguments, (host.routine routine arguments).Solitary

/-- The same host with another instruction limit. -/
def withLimit (host : Host) (limit : Option Nat) : Host :=
  { host with limits := { host.limits with instructionLimit := limit } }

theorem Solitary.withLimit {host : Host} (hs : host.Solitary) (limit : Option Nat) :
    (host.withLimit limit).Solitary := hs

end Host

/-! ## Instructions know no limit -/

namespace Execution

/-- A routine that runs no macro does the same under every limit, however macros are run. -/
theorem perform_withLimit (host : Host) (limit : Option Nat) (nested nested' : Runner) :
    ∀ r : Routine, r.Solitary → ∀ (preempting : Bool) (s : State),
      perform (host.withLimit limit) nested preempting r s =
        perform host nested' preempting r s := by
  intro r
  induction r with
  | finish result => intro _ _ _; rfl
  | inspect next ih =>
    intro h preempting s
    simp only [perform]
    exact ih _ (h _) _ _
  | update change next ih =>
    intro h preempting s
    simp only [perform]
    exact ih h _ _
  | setFocus target next ih =>
    intro h preempting s
    simp only [perform]
    exact ih h _ _
  | requestPreemption next ih =>
    intro h preempting s
    simp only [perform]
    exact ih h _ _
  | enter program next ih =>
    intro h preempting s
    simp only [perform]
    split
    · exact ih _ (h _) _ _
    · exact ih _ (h _) _ _
  | execute program arguments next ih => intro h; exact h.elim

theorem invoke_withLimit {host : Host} (hs : host.Solitary) (limit : Option Nat)
    (nested nested' : Runner) :
    invoke (host.withLimit limit) nested = invoke host nested' := by
  funext symbol routine arguments
  have h : perform (host.withLimit limit) nested false (host.routine routine arguments) =
      perform host nested' false (host.routine routine arguments) := by
    funext s
    exact perform_withLimit host limit nested nested' _ (hs _ _) false s
  unfold invoke
  exact congrArg _ (funext fun _ => congrArg (· >>= _) h)

/-- An instruction does the same under every limit, however macros are run. -/
theorem step_withLimit {host : Host} (hs : host.Solitary) (limit : Option Nat)
    (nested nested' : Runner) : step (host.withLimit limit) nested = step host nested' := by
  unfold step
  rw [invoke_withLimit hs limit nested nested']

/-- How macros are run does not matter to an instruction of a solitary host. -/
theorem step_nested {host : Host} (hs : host.Solitary) (nested nested' : Runner) :
    step host nested = step host nested' :=
  step_withLimit hs host.limits.instructionLimit nested nested'

/-- What an instruction that ends its macro makes of it. -/
def ending? : EStateM.Result Halt State Outcome → Option (Status × World)
  | .ok .done s =>
    match Context.pop s.context with
    | .ok value _ => some (.done value, s.world)
    | .error e _ => some (.failed e, s.world)
  | .error (.fault e) s => some (.failed e, s.world)
  | _ => none

theorem result_cases (result : EStateM.Result Halt State Outcome) :
    (∃ t, result = .ok .next t) ∨ (∃ t, result = .ok .preempt t) ∨
      (∃ t, result = .error .unfinished t) ∨
      ∃ status world, ending? result = some (status, world) := by
  rcases result with ⟨_ | _ | _, t⟩ | ⟨_ | _, t⟩
  · exact .inl ⟨t, rfl⟩
  · refine .inr (.inr (.inr ?_))
    simp only [ending?]
    split
    · exact ⟨_, _, rfl⟩
    · exact ⟨_, _, rfl⟩
  · exact .inr (.inl ⟨t, rfl⟩)
  · exact .inr (.inr (.inr ⟨_, _, rfl⟩))
  · exact .inr (.inr (.inl ⟨t, rfl⟩))

end Execution

/-! ## The drive, one instruction at a time -/

/-- How far a macro that is resumed whenever it is suspended has come. -/
inductive Stage where
  /-- So many instructions of the current slice are executed, after so many slices. -/
  | running (executed slices : Nat) (state : State)
  /-- The macro is over after so many slices. -/
  | ended (slices : Nat) (status : Status) (world : World)

/-- The world at a stage. -/
def Stage.world : Stage → World
  | .running _ _ s => s.world
  | .ended _ _ world => world

/-- The macro is no longer suspended. -/
def Status.Final : Status → Prop
  | .preempted _ _ => False
  | _ => True

/-- The stage at the end of a slice. -/
def Stage.afterSlice (slices : Nat) : Status → World → Stage
  | .preempted context _, world => .running 0 slices ⟨world, context⟩
  | status, world => .ended slices status world

theorem Stage.afterSlice_of_final {status : Status} (h : status.Final) (slices : Nat)
    (world : World) : Stage.afterSlice slices status world = .ended slices status world := by
  cases status with
  | done value => rfl
  | preempted context reason => exact h.elim
  | failed fault => rfl

theorem Execution.ending?_final {result : EStateM.Result Halt State Outcome} {status : Status}
    {world : World} (h : ending? result = some (status, world)) : status.Final := by
  unfold ending? at h
  split at h
  · split at h
    · cases h; trivial
    · cases h; trivial
  · cases h; trivial
  · cases h

namespace Host

/-- Goes on by one instruction. -/
def tick (host : Host) : Stage → Stage
  | .running executed slices s =>
    match Execution.step host (fun _ _ => none) s with
    | .ok .next t =>
      if host.sliceOver (executed + 1) then .running 0 (slices + 1) t
      else .running (executed + 1) slices t
    | .ok .preempt t => .running 0 (slices + 1) t
    | result =>
      match Execution.ending? result with
      | some (status, world) => .ended (slices + 1) status world
      | none => .running executed slices s
  | .ended slices status world => .ended slices status world

/-- Goes on by so many instructions. -/
def ticks (host : Host) : Nat → Stage → Stage
  | 0, stage => stage
  | n + 1, stage => host.ticks n (host.tick stage)

/-- The stage at which a macro is started. -/
def launch (host : Host) (world : World) (program : ProgramRef) (arguments : List Value)
    (target : Option DocumentHandle) : Stage :=
  match Context.start program arguments host.limits.stackSize target with
  | .ok context => .running 0 0 ⟨world, context⟩
  | .error e => .ended 1 (.failed e) world

theorem ticks_add (host : Host) (m n : Nat) (stage : Stage) :
    host.ticks (m + n) stage = host.ticks n (host.ticks m stage) := by
  induction m generalizing stage with
  | zero => rw [Nat.zero_add]; rfl
  | succ m ih => rw [Nat.succ_add]; exact ih (host.tick stage)

theorem ticks_ended (host : Host) (n slices : Nat) (status : Status) (world : World) :
    host.ticks n (.ended slices status world) = .ended slices status world := by
  induction n with
  | zero => rfl
  | succ n ih => exact ih

/-! ## The drive and its stages -/

/-- An instruction that ends the macro ends the slice. -/
theorem runSlice_ending {host : Host} {fuel : Nat} {s : State} {result : Status × World}
    (h : Execution.ending? (Execution.step host (host.runSlice fuel 0) s) = some result)
    (executed : Nat) :
    host.runSlice (fuel + 1) executed s.world s.context = some result := by
  simp only [runSlice]
  split
  · next heq => rw [heq] at h; cases h
  · next heq => rw [heq] at h; cases h
  · next heq =>
    rw [heq] at h
    exact h
  · next heq => rw [heq] at h; exact h
  · next heq => rw [heq] at h; cases h

/-- A status that is final is not resumed. -/
theorem resumeWhile_of_final (host : Host) {status : Status} (h : status.Final)
    (fuel slices : Nat) (world : World) :
    host.resumeWhile fuel slices status world = some (status, 0, world) := by
  cases status with
  | done value => cases slices <;> rfl
  | preempted context reason => exact h.elim
  | failed fault => cases slices <;> rfl

section Drive

variable {host : Host} (hs : host.Solitary)

include hs

theorem tick_next {nested : Runner} {s t : State}
    (h : Execution.step host nested s = .ok .next t) (executed slices : Nat) :
    host.tick (.running executed slices s) =
      if host.sliceOver (executed + 1) then .running 0 (slices + 1) t
      else .running (executed + 1) slices t := by
  rw [Execution.step_nested hs nested fun _ _ => none] at h
  simp only [tick, h]

theorem tick_preempt {nested : Runner} {s t : State}
    (h : Execution.step host nested s = .ok .preempt t) (executed slices : Nat) :
    host.tick (.running executed slices s) = .running 0 (slices + 1) t := by
  rw [Execution.step_nested hs nested fun _ _ => none] at h
  simp only [tick, h]

theorem tick_ending {nested : Runner} {s : State} {status : Status} {world : World}
    (h : Execution.ending? (Execution.step host nested s) = some (status, world))
    (executed slices : Nat) :
    host.tick (.running executed slices s) = .ended (slices + 1) status world := by
  rw [Execution.step_nested hs nested fun _ _ => none] at h
  simp only [tick]
  split
  · next heq => rw [heq] at h; cases h
  · next heq => rw [heq] at h; cases h
  · rw [h]

/-- A slice is so many instructions one after the other. -/
theorem runSlice_ticks {fuel executed : Nat} {world world' : World} {context : Context}
    {status : Status} (slices : Nat)
    (h : host.runSlice fuel executed world context = some (status, world')) :
    ∃ k, host.ticks k (.running executed slices ⟨world, context⟩) =
      .afterSlice (slices + 1) status world' := by
  induction fuel generalizing executed world context with
  | zero => cases h
  | succ fuel ih =>
    simp only [runSlice] at h
    split at h
    · next t hstep =>
      have htick := tick_next hs hstep executed slices
      split at h
      · next hover =>
        cases h
        rw [if_pos hover] at htick
        exact ⟨1, htick⟩
      · next hover =>
        rw [if_neg hover] at htick
        obtain ⟨k, hk⟩ := ih h
        exact ⟨k + 1, by rw [ticks, htick]; exact hk⟩
    · next t hstep =>
      cases h
      exact ⟨1, tick_preempt hs hstep executed slices⟩
    · next t hstep =>
      refine ⟨1, ?_⟩
      split at h
      · next value _ hpop =>
        cases h
        exact tick_ending hs (by rw [hstep]; simp only [Execution.ending?, hpop]) executed slices
      · next e _ hpop =>
        cases h
        exact tick_ending hs (by rw [hstep]; simp only [Execution.ending?, hpop]) executed slices
    · next e t hstep =>
      cases h
      exact ⟨1, tick_ending hs (by rw [hstep]; rfl) executed slices⟩
    · cases h

/-- Further slices go on from where the slice before them was cut. -/
theorem resumeWhile_ticks {fuel more : Nat} {status status' : Status} {n : Nat}
    {world world' : World} (slices : Nat)
    (h : host.resumeWhile fuel more status world = some (status', n, world')) :
    ∃ k, host.ticks k (.afterSlice slices status world) =
      .afterSlice (slices + n) status' world' := by
  induction more generalizing status world n slices with
  | zero =>
    simp only [resumeWhile] at h
    cases h
    exact ⟨0, rfl⟩
  | succ more ih =>
    cases status with
    | done value =>
      simp only [resumeWhile] at h
      cases h
      exact ⟨0, rfl⟩
    | failed fault =>
      simp only [resumeWhile] at h
      cases h
      exact ⟨0, rfl⟩
    | preempted context reason =>
      simp only [resumeWhile] at h
      split at h
      · next status₁ world₁ hslice =>
        obtain ⟨⟨status₂, n₂, world₂⟩, hrest, hmap⟩ := Option.map_eq_some_iff.1 h
        cases hmap
        obtain ⟨k₁, hk₁⟩ := runSlice_ticks hs slices hslice
        obtain ⟨k₂, hk₂⟩ := ih (slices + 1) hrest
        refine ⟨k₁ + k₂, ?_⟩
        rw [ticks_add, show Stage.afterSlice slices (.preempted context reason) world =
          .running 0 slices ⟨world, context⟩ from rfl, hk₁, hk₂]
        rw [show slices + 1 + n₂ = slices + (n₂ + 1) by omega]
      · cases h

theorem tick_unfinished {nested : Runner} {s t : State}
    (h : Execution.step host nested s = .error .unfinished t) (executed slices : Nat) :
    host.tick (.running executed slices s) = .running executed slices s := by
  rw [Execution.step_nested hs nested fun _ _ => none] at h
  simp only [tick, h, Execution.ending?]

/-- Conversely, a macro that is over after so many instructions is driven to its end, given a bound
and a number of slices that are large enough.  The bound of the current slice and that of the later
ones are apart, since the former shrinks on the way. -/
theorem resumeWhile_of_ticks {k executed slices n : Nat} {s : State} {status : Status}
    {world : World} (h : host.ticks k (.running executed slices s) = .ended n status world) :
    ∀ fuel fuel' more, k ≤ fuel → k ≤ fuel' → k ≤ more → ∃ status₁ world₁ n₁,
      host.runSlice fuel executed s.world s.context = some (status₁, world₁) ∧
      host.resumeWhile fuel' more status₁ world₁ = some (status, n₁, world) ∧
      n = slices + 1 + n₁ := by
  induction k generalizing executed slices s with
  | zero => cases h
  | succ k ih =>
    intro fuel fuel' more hf hf' hm
    obtain ⟨fuel, rfl⟩ : ∃ m, fuel = m + 1 := ⟨fuel - 1, by omega⟩
    obtain ⟨more, rfl⟩ : ∃ m, more = m + 1 := ⟨more - 1, by omega⟩
    rw [ticks] at h
    rcases Execution.result_cases (Execution.step host (host.runSlice fuel 0) s) with
      ⟨t, hstep⟩ | ⟨t, hstep⟩ | ⟨t, hstep⟩ | ⟨status₁, world₁, hend⟩
    · rw [tick_next hs hstep] at h
      simp only [runSlice, hstep]
      split at h
      · next hover =>
        obtain ⟨status₁, world₁, n₁, hslice, hrest, hn⟩ :=
          ih h fuel' fuel' more (by omega) (by omega) (by omega)
        refine ⟨_, _, n₁ + 1, if_pos hover, ?_, by omega⟩
        simp only [resumeWhile, resume, hslice, hrest, Option.map_some]
      · next hover =>
        obtain ⟨status₁, world₁, n₁, hslice, hrest, hn⟩ :=
          ih h fuel fuel' (more + 1) (by omega) (by omega) (by omega)
        exact ⟨status₁, world₁, n₁, by rw [if_neg hover]; exact hslice, hrest, hn⟩
    · rw [tick_preempt hs hstep] at h
      simp only [runSlice, hstep]
      obtain ⟨status₁, world₁, n₁, hslice, hrest, hn⟩ :=
        ih h fuel' fuel' more (by omega) (by omega) (by omega)
      refine ⟨_, _, n₁ + 1, rfl, ?_, by omega⟩
      simp only [resumeWhile, resume, hslice, hrest, Option.map_some]
    · -- the stage would stay as it is for ever
      rw [tick_unfinished hs hstep] at h
      obtain ⟨_, _, _, hslice, -, -⟩ :=
        ih h (fuel + 1) fuel' (more + 1) (by omega) (by omega) (by omega)
      simp only [runSlice, hstep] at hslice
      cases hslice
    · rw [tick_ending hs hend, ticks_ended] at h
      cases h
      exact ⟨status, world, 0, runSlice_ending hend executed,
        host.resumeWhile_of_final (Execution.ending?_final hend) _ _ _, rfl⟩

/-- What a drive shows at the end of a slice is one of the stages. -/
theorem drive_ticks {fuel slices n : Nat} {world world' : World} {program : ProgramRef}
    {arguments : List Value} {target : Option DocumentHandle} {status : Status}
    (h : host.drive fuel slices world program arguments target = some (status, n, world')) :
    ∃ k, host.ticks k (host.launch world program arguments target) =
      .afterSlice n status world' := by
  unfold drive execute at h
  unfold launch
  cases hstart : Context.start program arguments host.limits.stackSize target with
  | error e =>
    rw [hstart] at h
    have hrest := host.resumeWhile_of_final (show (Status.failed e).Final from trivial)
    simp only [hrest] at h
    cases h
    exact ⟨0, rfl⟩
  | ok context =>
    rw [hstart] at h
    dsimp only at h
    split at h
    · next status₁ world₁ hslice =>
      obtain ⟨⟨status₂, n₂, world₂⟩, hrest, hmap⟩ := Option.map_eq_some_iff.1 h
      cases hmap
      obtain ⟨k₁, hk₁⟩ := runSlice_ticks hs 0 hslice
      obtain ⟨k₂, hk₂⟩ := resumeWhile_ticks hs 1 hrest
      refine ⟨k₁ + k₂, ?_⟩
      rw [ticks_add, hk₁, hk₂, Nat.add_comm]
    · cases h

/-- Driving a macro to its end is going on, one instruction at a time, until it is over. -/
theorem drive_iff_ended {world world' : World} {program : ProgramRef} {arguments : List Value}
    {target : Option DocumentHandle} {status : Status} (hfinal : status.Final) (n : Nat) :
    (∃ fuel slices, host.drive fuel slices world program arguments target =
        some (status, n, world')) ↔
      ∃ k, host.ticks k (host.launch world program arguments target) = .ended n status world' := by
  constructor
  · rintro ⟨fuel, slices, h⟩
    obtain ⟨k, hk⟩ := drive_ticks hs h
    exact ⟨k, by rw [hk, Stage.afterSlice_of_final hfinal]⟩
  · rintro ⟨k, h⟩
    unfold drive execute
    unfold launch at h
    cases hstart : Context.start program arguments host.limits.stackSize target with
    | error e =>
      simp only [hstart, ticks_ended] at h
      cases h
      exact ⟨0, 0, rfl⟩
    | ok context =>
      rw [hstart] at h
      obtain ⟨status₁, world₁, n₁, hslice, hrest, hn⟩ :=
        resumeWhile_of_ticks hs h k k k (Nat.le_refl k) (Nat.le_refl k) (Nat.le_refl k)
      refine ⟨k, k, ?_⟩
      simp only [resume] at hslice ⊢
      rw [hslice]
      simp only [hrest, Option.map_some, hn]
      rw [show 0 + 1 + n₁ = n₁ + 1 by omega]

end Drive

/-- A macro is over once: its end does not depend on how long one goes on. -/
theorem ended_unique {host : Host} {stage : Stage} {k k' n n' : Nat} {status status' : Status}
    {world world' : World} (h : host.ticks k stage = .ended n status world)
    (h' : host.ticks k' stage = .ended n' status' world') :
    n = n' ∧ status = status' ∧ world = world' := by
  have hk : host.ticks (k + k') stage = .ended n status world := by
    rw [ticks_add, h, ticks_ended]
  have hk' : host.ticks (k + k') stage = .ended n' status' world' := by
    rw [Nat.add_comm, ticks_add, h', ticks_ended]
  rw [hk] at hk'
  cases hk'
  exact ⟨rfl, rfl, rfl⟩

end Host

/-! ## Two limits side by side -/

/-- Two stages that differ in their counters alone. -/
inductive Stage.Alike : Stage → Stage → Prop where
  | running (executed executed' slices slices' : Nat) (s : State) :
      Alike (.running executed slices s) (.running executed' slices' s)
  | ended (slices slices' : Nat) (status : Status) (world : World) :
      Alike (.ended slices status world) (.ended slices' status world)

theorem Stage.Alike.world_eq {a b : Stage} (h : a.Alike b) : a.world = b.world := by
  cases h with
  | running => rfl
  | ended => rfl

theorem Stage.Alike.ended_eq {a b : Stage} (h : a.Alike b) {n : Nat} {status : Status}
    {world : World} (ha : a = .ended n status world) : ∃ n', b = .ended n' status world := by
  subst ha
  cases h with
  | ended _ n' => exact ⟨n', rfl⟩

namespace Host

section Limits

variable {host : Host} (hs : host.Solitary)

include hs

/-- Under any two limits the next instruction leads to stages that are alike. -/
theorem tick_alike (limit limit' : Option Nat) {a b : Stage} (h : a.Alike b) :
    ((host.withLimit limit).tick a).Alike ((host.withLimit limit').tick b) := by
  cases h with
  | ended n n' status world => exact .ended n n' status world
  | running e e' n n' s =>
    have heq := Execution.step_withLimit hs limit (fun _ _ => none) (fun _ _ => none)
    have heq' := Execution.step_withLimit hs limit' (fun _ _ => none) (fun _ _ => none)
    rcases Execution.result_cases (Execution.step host (fun _ _ => none) s) with
      ⟨t, hstep⟩ | ⟨t, hstep⟩ | ⟨t, hstep⟩ | ⟨status, world, hend⟩
    · rw [tick_next (hs.withLimit limit) (by rw [heq]; exact hstep),
        tick_next (hs.withLimit limit') (by rw [heq']; exact hstep)]
      split <;> split <;> exact .running _ _ _ _ t
    · rw [tick_preempt (hs.withLimit limit) (by rw [heq]; exact hstep),
        tick_preempt (hs.withLimit limit') (by rw [heq']; exact hstep)]
      exact .running _ _ _ _ t
    · rw [tick_unfinished (hs.withLimit limit) (by rw [heq]; exact hstep),
        tick_unfinished (hs.withLimit limit') (by rw [heq']; exact hstep)]
      exact .running _ _ _ _ s
    · rw [tick_ending (hs.withLimit limit) (by rw [heq]; exact hend),
        tick_ending (hs.withLimit limit') (by rw [heq']; exact hend)]
      exact .ended _ _ status world

theorem ticks_alike (limit limit' : Option Nat) (k : Nat) {a b : Stage} (h : a.Alike b) :
    ((host.withLimit limit).ticks k a).Alike ((host.withLimit limit').ticks k b) := by
  induction k generalizing a b with
  | zero => exact h
  | succ k ih => exact ih (tick_alike hs limit limit' h)

/-- Starting a macro does not depend on the limit, and every stage is like itself. -/
theorem launch_alike (limit limit' : Option Nat) (k : Nat) (world : World) (program : ProgramRef)
    (arguments : List Value) (target : Option DocumentHandle) :
    ((host.withLimit limit).ticks k (host.launch world program arguments target)).Alike
      ((host.withLimit limit').ticks k (host.launch world program arguments target)) := by
  apply ticks_alike hs
  unfold launch
  split
  · exact .running _ _ _ _ _
  · exact .ended _ _ _ _

/-- The end that a macro comes to under one limit it comes to under any other. -/
theorem drive_transfer (limit limit' : Option Nat) {fuel slices n : Nat} {world world' : World}
    {program : ProgramRef} {arguments : List Value} {target : Option DocumentHandle}
    {status : Status} (hfinal : status.Final)
    (h : (host.withLimit limit).drive fuel slices world program arguments target =
      some (status, n, world')) :
    ∃ fuel' slices' n', (host.withLimit limit').drive fuel' slices' world program arguments target =
      some (status, n', world') := by
  obtain ⟨k, hk⟩ := (drive_iff_ended (hs.withLimit limit) hfinal n).1 ⟨fuel, slices, h⟩
  obtain ⟨n', hk'⟩ := (launch_alike hs limit limit' k world program arguments target).ended_eq hk
  obtain ⟨fuel', slices', h'⟩ := (drive_iff_ended (hs.withLimit limit') hfinal n').2 ⟨k, hk'⟩
  exact ⟨fuel', slices', n', h'⟩

end Limits

/-! ## Counting slices -/

/-- So many instructions, none of which ends or suspends the macro. -/
inductive Proceeds (host : Host) : Nat → State → State → Prop where
  | stay (s : State) : Proceeds host 0 s s
  | step {m : Nat} {s t u : State} : host.Steps s .next t → Proceeds host m t u →
      Proceeds host (m + 1) s u

theorem Proceeds.trans {host : Host} {m k : Nat} {s t u : State} (h : host.Proceeds m s t)
    (h' : host.Proceeds k t u) : host.Proceeds (m + k) s u := by
  induction h with
  | stay s =>
    rw [Nat.zero_add]
    exact h'
  | step hstep _ ih =>
    rw [Nat.succ_add]
    exact .step hstep (ih h')

/-- The next instruction ends the macro. -/
def Ends (host : Host) (s : State) (status : Status) (world : World) : Prop :=
  ∃ fuel, Execution.ending? (Execution.step host (host.resume fuel) s) = some (status, world)

section Counting

variable {host : Host} (hs : host.Solitary)

include hs

/-- Under a limit `n` a slice holds `max n 1` instructions, so the two counters are the quotient and
the remainder of the number of instructions. -/
theorem ticks_limited {m : Nat} {s t : State} (h : host.Proceeds m s t) (n : Nat) :
    ∀ executed slices, executed < max n 1 → ∃ executed' slices',
      (host.withLimit (some n)).ticks m (.running executed slices s) =
        .running executed' slices' t ∧
      executed' < max n 1 ∧
      slices' * max n 1 + executed' = slices * max n 1 + executed + m := by
  induction h with
  | stay s =>
    intro executed slices hlt
    exact ⟨executed, slices, rfl, hlt, rfl⟩
  | @step m s t u hstep _ ih =>
    intro executed slices hlt
    obtain ⟨fuel, hstep⟩ := hstep
    rw [← Execution.step_withLimit hs (some n) (host.resume fuel)] at hstep
    rw [ticks, tick_next (hs.withLimit (some n)) hstep]
    by_cases hover : n ≤ executed + 1
    · have hfull : executed + 1 = max n 1 := by omega
      rw [if_pos (by simpa [sliceOver, withLimit] using hover)]
      obtain ⟨executed', slices', hticks, hlt', hsum⟩ := ih 0 (slices + 1) (by omega)
      refine ⟨executed', slices', hticks, hlt', ?_⟩
      rw [hsum, Nat.succ_mul]
      omega
    · rw [if_neg (by simpa [sliceOver, withLimit] using hover)]
      obtain ⟨executed', slices', hticks, hlt', hsum⟩ := ih (executed + 1) slices (by omega)
      exact ⟨executed', slices', hticks, hlt', by omega⟩

/-- Without a limit there is one slice. -/
theorem ticks_unlimited {m : Nat} {s t : State} (h : host.Proceeds m s t) :
    ∀ executed slices, (host.withLimit none).ticks m (.running executed slices s) =
      .running (executed + m) slices t := by
  induction h with
  | stay s => intro executed slices; rfl
  | @step m s t u hstep _ ih =>
    intro executed slices
    obtain ⟨fuel, hstep⟩ := hstep
    rw [← Execution.step_withLimit hs none (host.resume fuel)] at hstep
    rw [ticks, tick_next (hs.withLimit none) hstep, if_neg (by simp [sliceOver, withLimit]), ih]
    rw [show executed + 1 + m = executed + (m + 1) by omega]

/-- The instruction that ends the macro belongs to the slice that is running. -/
theorem ticks_ends {limit : Option Nat} {m executed slices : Nat} {stage : Stage} {s : State}
    {status : Status} {world : World}
    (h : (host.withLimit limit).ticks m stage = .running executed slices s)
    (hend : host.Ends s status world) :
    (host.withLimit limit).ticks (m + 1) stage = .ended (slices + 1) status world := by
  obtain ⟨fuel, hend⟩ := hend
  rw [← Execution.step_withLimit hs limit (host.resume fuel)] at hend
  rw [ticks_add, h]
  exact tick_ending (hs.withLimit limit) hend executed slices

/-- How many slices a macro takes is read off the stage at which it is over. -/
theorem drive_count {limit : Option Nat} {k slices : Nat} {world world' : World}
    {program : ProgramRef} {arguments : List Value} {target : Option DocumentHandle}
    {status : Status} (hfinal : status.Final)
    (h : (host.withLimit limit).ticks k
      ((host.withLimit limit).launch world program arguments target) =
        .ended slices status world') (count : Nat) :
    (∃ fuel more, (host.withLimit limit).drive fuel more world program arguments target =
      some (status, count, world')) ↔ count = slices := by
  rw [drive_iff_ended (hs.withLimit limit) hfinal]
  constructor
  · rintro ⟨k', h'⟩
    exact (ended_unique h' h).1
  · rintro rfl
    exact ⟨k, h⟩

/-- The stage at which a macro is over that executes `m` instructions before its last one. -/
theorem ticks_to_end {m : Nat} {s t : State} {status : Status} {world : World}
    (hrun : host.Proceeds m s t) (hend : host.Ends t status world) (limit : Option Nat) :
    (host.withLimit limit).ticks (m + 1) (.running 0 0 s) =
      .ended (limit.elim 1 fun n => m / max n 1 + 1) status world := by
  cases limit with
  | none => exact ticks_ends hs (ticks_unlimited hs hrun 0 0) hend
  | some n =>
    obtain ⟨executed, slices, hticks, hlt, hsum⟩ := ticks_limited hs hrun n 0 0 (by omega)
    have hsplit : m = executed + max n 1 * slices := by
      rw [Nat.mul_comm]
      omega
    rw [ticks_ends hs hticks hend, hsplit, Option.elim_some,
      Nat.add_mul_div_left executed slices (by omega), Nat.div_eq_of_lt hlt, Nat.zero_add]

/-- A macro that is started and executes `m` instructions before its last one is driven to its
end. -/
theorem drive_to_end {m fuel more : Nat} {world world' : World} {program : ProgramRef}
    {arguments : List Value} {target : Option DocumentHandle} {context : Context} {t : State}
    {status : Status}
    (hstart : Context.start program arguments host.limits.stackSize target = .ok context)
    (hrun : host.Proceeds m ⟨world, context⟩ t) (hend : host.Ends t status world')
    (limit : Option Nat) (hfuel : m < fuel) (hmore : m < more) :
    (host.withLimit limit).drive fuel more world program arguments target =
      some (status, limit.elim 1 fun n => m / max n 1 + 1, world') := by
  obtain ⟨status₁, world₁, n, hslice, hrest, hn⟩ :=
    resumeWhile_of_ticks (hs.withLimit limit) (ticks_to_end hs hrun hend limit) fuel fuel more
      hfuel hfuel hmore
  rw [drive, execute, show Context.start program arguments (host.withLimit limit).limits.stackSize
    target = .ok context from hstart]
  simp only [resume, hslice, hrest, Option.map_some, hn]
  rw [Nat.zero_add, Nat.add_comm]

end Counting

/-- The instruction limit does not matter: under any two limits a macro that is resumed whenever it
is suspended executes the same instructions, and it comes to the same end, if to any.  What a drive
shows at the end of a slice are the stages at which the instructions are compared.  If `m`
instructions go on with the macro, none of them suspends it and the next one ends it, then the macro
takes `m / max n 1 + 1` slices under the limit `n` and one slice without a limit. -/
theorem drive_independent_of_limit {host : Host} (hs : host.Solitary) (limit limit' : Option Nat)
    (world : World) (program : ProgramRef) (arguments : List Value)
    (target : Option DocumentHandle) :
    (∀ k, ((host.withLimit limit).ticks k
          (host.launch world program arguments target)).world.dispatches =
        ((host.withLimit limit').ticks k
          (host.launch world program arguments target)).world.dispatches) ∧
    (∀ fuel slices status n world',
      (host.withLimit limit).drive fuel slices world program arguments target =
          some (status, n, world') →
        ∃ k, (host.withLimit limit).ticks k (host.launch world program arguments target) =
          .afterSlice n status world') ∧
    (∀ status world', status.Final →
      ((∃ fuel slices n, (host.withLimit limit).drive fuel slices world program arguments target =
          some (status, n, world')) ↔
        ∃ fuel slices n, (host.withLimit limit').drive fuel slices world program arguments target =
          some (status, n, world'))) ∧
    ∀ context m s status world',
      Context.start program arguments host.limits.stackSize target = .ok context →
      host.Proceeds m ⟨world, context⟩ s → host.Ends s status world' →
      (∀ n count, (∃ fuel slices, (host.withLimit (some n)).drive fuel slices world program
          arguments target = some (status, count, world')) ↔ count = m / max n 1 + 1) ∧
      ∀ count, (∃ fuel slices, (host.withLimit none).drive fuel slices world program
          arguments target = some (status, count, world')) ↔ count = 1 := by
  refine ⟨?_, ?_, ?_, ?_⟩
  · intro k
    rw [(launch_alike hs limit limit' k world program arguments target).world_eq]
  · intro fuel slices status n world' h
    exact drive_ticks (hs.withLimit limit) h
  · intro status world' hfinal
    constructor
    · rintro ⟨fuel, slices, n, h⟩
      exact drive_transfer hs limit limit' hfinal h
    · rintro ⟨fuel, slices, n, h⟩
      exact drive_transfer hs limit' limit hfinal h
  · intro context m s status world' hstart hrun hend
    have hfinal : status.Final := by
      obtain ⟨fuel, hend⟩ := hend
      exact Execution.ending?_final hend
    have hlaunch (limit : Option Nat) :
        (host.withLimit limit).launch world program arguments target =
          .running 0 0 ⟨world, context⟩ := by
      show host.launch world program arguments target = _
      rw [launch, hstart]
    constructor
    · intro n
      obtain ⟨executed, slices, hticks, hlt, hsum⟩ := ticks_limited hs hrun n 0 0 (by omega)
      have hquotient : m / max n 1 = slices := by
        apply Nat.div_eq_of_lt_le
        · omega
        · rw [Nat.succ_mul]
          omega
      rw [hquotient]
      rw [← hlaunch (some n)] at hticks
      exact drive_count hs hfinal (ticks_ends hs hticks hend)
    · have hticks := ticks_unlimited hs hrun 0 0
      rw [← hlaunch none] at hticks
      exact drive_count hs hfinal (ticks_ends hs hticks hend)

/-- A limit that the last instruction but one uses up: the return has a slice of its own. -/
theorem drive_independent_of_limit_at_boundary :
    ∃ (host : Host) (program : ProgramRef) (world : World), host.Solitary ∧
      ∃ fuel slices, (host.withLimit (some 1)).drive fuel slices (.ofSymbols .empty) program
        [.int 5] none = some (.done (.int 1), 2, world) := by
  have hs : Solitary ⟨⟨8, none⟩, fun _ _ => .requestPreemption .idle⟩ := fun _ _ => trivial
  have h := drive_independent_of_limit hs none none (.ofSymbols .empty)
    ⟨0, #[.op .pushArgumentCount, .op .returnValue], []⟩ [.int 5] none
  exact ⟨_, _, _, hs, ((h.2.2.2 _ 1 _ (.done (.int 1)) _ rfl
    (.step ⟨0, rfl⟩ (.stay _)) ⟨0, rfl⟩).1 1 2).2 rfl⟩

end Host

end MacroMachine
