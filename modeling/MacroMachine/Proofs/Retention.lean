import MacroMachine.Native.Script
import MacroMachine.Proofs.Balance
import MacroMachine.Proofs.Effects

/-!
# Containers are never given up

A container is named by its number, so a name means the same container for ever only if no container
is ever given up.  Instructions never do so.  The routines of a host might, since they may change
the world in any way; a host that `Retains` containers has no such routines.  This module shows that
nothing that macros do under such a host gives up containers, faults and the macros that routines
run included.

*Scripts.*  Every routine that is put together from actions retains containers.
-/

namespace MacroMachine

/-- Every container of the first world is a container of the second. -/
def World.Retains (w w' : World) : Prop :=
  w.store.containers.size ≤ w'.store.containers.size

theorem World.Retains.refl (w : World) : w.Retains w :=
  Nat.le_refl _

theorem World.Retains.trans {w w' w'' : World} (h : w.Retains w') (h' : w'.Retains w'') :
    w.Retains w'' :=
  Nat.le_trans h h'

/-- There is a container of this name. -/
def World.Has (w : World) (ref : ArrayRef) : Prop :=
  ref.index < w.store.containers.size

/-- A container that exists goes on to exist. -/
theorem World.Has.retained {w w' : World} {ref : ArrayRef} (h : w.Has ref) (hw : w.Retains w') :
    w'.Has ref :=
  Nat.lt_of_lt_of_le h hw

/-- The routine gives up no containers if it starts in this world. -/
def Routine.Retains : Routine → World → Prop
  | .finish _, _ => True
  | .inspect next, w => ∀ view, view.world = w → (next view).Retains w
  | .update change next, w => w.Retains (change w) ∧ next.Retains (change w)
  | .setFocus _ next, w => next.Retains w
  | .requestPreemption next, w => next.Retains w
  | .enter _ next, w => ∀ answer, (next answer).Retains w
  | .execute _ _ next, w => ∀ status w', w.Retains w' → (next status).Retains w'

/-- The routines of the host give up no containers. -/
def Host.Retains (host : Host) : Prop :=
  ∀ routine arguments w, (host.routine routine arguments).Retains w

/-- Whoever runs a macro gives up no containers. -/
def Runner.Retains (runner : Runner) : Prop :=
  ∀ w c status w', runner w c = some (status, w') → w.Retains w'

/-! ## Within an instruction -/

/-- Within an instruction containers are made and altered, but none is given up. -/
theorem During.retains {s₀ s : State} (h : During s₀ s) : s₀.world.Retains s.world := by
  induction h with
  | popped hs => exact Nat.le_of_eq (congrArg (·.containers.size) hs.store.symm)
  | jump _ _ ih => exact ih
  | push _ _ _ ih => exact ih
  | make e _ ih => exact ih.trans (Nat.le_of_lt (Nat.le_of_eq (State.size_make _ e).symm))
  | @store s place v _ _ _ ih =>
    cases place with
    | frame offset => exact ih
    | global id => exact ih
  | @storeNew s place e _ _ ih =>
    have hmade := ih.trans (Nat.le_of_lt (Nat.le_of_eq (State.size_make s e).symm))
    cases place with
    | frame offset => exact hmade
    | global id => exact hmade
  | cache e _ _ ih => exact ih.trans (Nat.le_of_lt (Nat.le_of_eq (State.size_make _ e).symm))
  | alter _ _ ih => exact ih.trans (Nat.le_of_eq (State.size_alter _ _ _).symm)

/-- Nor is one given up when the instruction is over. -/
theorem Becomes.retains {s t : State} {outcome : Outcome} (h : Becomes s outcome t) :
    s.world.Retains t.world := by
  cases h with
  | stays hduring => exact hduring.retains
  | enters p _ hs _ =>
    have hduring : During s _ := .popped hs
    exact hduring.retains
  | returns _ hreturned =>
    exact Nat.le_of_eq (congrArg (·.containers.size) hreturned.world.2.symm)
  | ends _ hended =>
    obtain ⟨hs, hworld⟩ := hended
    have hduring : During s _ := .popped hs
    rw [hworld]
    exact hduring.retains

/-! ## Routines -/

/-- An execution that comes to this result has given up no containers of a world. -/
def World.RetainedBy {α : Type} (w : World) : EStateM.Result Halt State α → Prop
  | .ok _ t => w.Retains t.world
  | .error _ t => w.Retains t.world

theorem World.Retains.retainedBy {α : Type} {w w' : World} {r : EStateM.Result Halt State α}
    (h : w.Retains w') (hr : w'.RetainedBy r) : w.RetainedBy r := by
  cases r with
  | ok a t => exact h.trans hr
  | error halt t => exact h.trans hr

namespace Execution

variable {α β : Type} {x : Execution α} {f : α → Execution β} {host : Host} {nested : Runner}

/-- The execution gives up no containers. -/
def Retains (x : Execution α) : Prop :=
  ∀ s : State, s.world.RetainedBy (x s)

/-- Executions that retain containers may follow one another, whether they succeed or fail. -/
theorem Retains.bind (hx : Retains x) (hf : ∀ a, Retains (f a)) : Retains (x >>= f) := by
  intro s
  have hfirst := hx s
  cases heq : x s with
  | ok a t =>
    rw [heq] at hfirst
    rw [bind_of_ok heq]
    exact World.Retains.retainedBy hfirst (hf a t)
  | error halt t =>
    rw [heq] at hfirst
    rw [bind_of_error heq]
    exact hfirst

theorem retains_pure (a : α) : Retains (pure a) :=
  fun s => World.Retains.refl s.world

theorem retains_raise (e : Fault) : Retains (raise e : Execution α) :=
  fun s => World.Retains.refl s.world

/-- Transitions do not touch the store. -/
theorem retains_transition (t : Transition α) : Retains (transition t) := by
  rintro ⟨w, c⟩
  rw [transition]
  cases t c with
  | ok a c' => exact World.Retains.refl w
  | error e c' => exact World.Retains.refl w

theorem retains_view (g : Context → Except Fault α) : Retains (view g) := by
  intro s
  rw [view]
  cases g s.context with
  | ok a => exact World.Retains.refl s.world
  | error e => exact World.Retains.refl s.world

theorem retains_ofExcept (r : Except Fault α) : Retains (ofExcept r) := by
  cases r with
  | ok a => exact retains_pure a
  | error e => exact retains_raise e

theorem retains_convert (r : Except Mismatch α) : Retains (convert r) := by
  cases r with
  | ok a => exact retains_pure a
  | error why => exact retains_raise _

theorem retains_symbol (id : SymbolId) : Retains (symbol id) := by
  intro s
  rw [symbol]
  cases s.world.symbols.get? id with
  | some symbol => exact World.Retains.refl s.world
  | none => exact World.Retains.refl s.world

theorem retains_complaint (id : SymbolId) (why : String → Fault) :
    Retains (do raise (why (← symbolName id)) : Execution α) :=
  fun s => World.Retains.refl s.world

/-- A routine retains containers if its changes and the macros that it runs do. -/
theorem perform_retained (hnested : Runner.Retains nested) {r : Routine} {preempting : Bool}
    {s : State} (hr : r.Retains s.world) :
    s.world.RetainedBy (perform host nested preempting r s) := by
  induction r generalizing preempting s with
  | finish result => exact World.Retains.refl s.world
  | inspect next ih => exact ih _ (hr _ rfl)
  | update change next ih =>
    exact hr.1.retainedBy (@ih preempting ⟨change s.world, s.context⟩ hr.2)
  | setFocus target next ih => exact @ih preempting ⟨s.world, s.context.setFocus target⟩ hr
  | requestPreemption next ih => exact ih hr
  | enter p next ih =>
    obtain ⟨w, c⟩ := s
    simp only [perform]
    cases Context.enter 0 p c with
    | ok _ c' => exact @ih none preempting ⟨w, c'⟩ (hr none)
    | error e c' => exact @ih (some e) preempting ⟨w, c'⟩ (hr (some e))
  | execute p arguments next ih =>
    obtain ⟨w, c⟩ := s
    simp only [perform]
    cases Context.start p arguments host.limits.stackSize c.focusTarget with
    | error e => exact @ih (.failed e) preempting ⟨w, c⟩ (hr _ w (World.Retains.refl w))
    | ok inner =>
      cases hrun : nested w inner with
      | none =>
        simp only [hrun]
        exact World.Retains.refl w
      | some answer =>
        obtain ⟨status, w'⟩ := answer
        have hretained := hnested _ _ _ _ hrun
        simp only [hrun]
        exact hretained.retainedBy (@ih status preempting ⟨w', c⟩ (hr status w' hretained))

variable (hhost : host.Retains) (hnested : Runner.Retains nested)
include hhost hnested

/-- A routine of such a host retains containers when it is called. -/
theorem invoke_retains (id : SymbolId) (routine : NativeId) (arguments : List Value) :
    Retains (invoke host nested id routine arguments) := by
  refine .bind (fun s => World.Retains.refl s.world) fun _ => .bind (fun s => ?_) fun answer => ?_
  · exact perform_retained hnested (hhost routine arguments s.world)
  · obtain ⟨result, preempting⟩ := answer
    cases result with
    | ok v => exact retains_pure _
    | error why => exact retains_complaint id _

/-- A symbol may be computed by a routine. -/
theorem symbolValue_retains (id : SymbolId) : Retains (symbolValue (invoke host nested) id) := by
  refine .bind (retains_symbol id) fun symbol => ?_
  split
  · exact .bind (retains_ofExcept _) fun offset => retains_view _
  · exact retains_pure _
  · exact retains_pure _
  · refine .bind (retains_convert _) fun index => .bind (retains_view _) fun count => ?_
    split
    · exact retains_pure _
    · split
      · exact retains_complaint id _
      · exact retains_view _
  · split
    · exact .bind (invoke_retains hhost hnested id _ []) fun _ => retains_pure _
    · exact retains_raise _
  · exact retains_raise _
  · exact retains_raise _

theorem pushSymbol_retains : Retains (pushSymbol (invoke host nested)) := by
  refine .bind (retains_transition _) fun id => ?_
  refine .bind (symbolValue_retains hhost hnested id) fun v => ?_
  split
  · exact retains_complaint id _
  · exact .bind (retains_transition _) fun _ => retains_pure _

/-- A call enters a function or runs a routine. -/
theorem call_retains : Retains (call (invoke host nested)) := by
  refine .bind (retains_transition _) fun id => .bind (retains_transition _) fun count => ?_
  refine .bind (retains_symbol id) fun symbol => ?_
  split
  · refine .bind (retains_transition _) fun arguments => ?_
    refine .bind (invoke_retains hhost hnested id _ arguments) fun answer => ?_
    refine .bind (.bind (fun s => World.Retains.refl s.world) fun c => ?_) fun _ => retains_pure _
    split
    · split
      · exact retains_complaint id _
      · exact .bind (retains_transition _) fun _ => retains_transition _
    · exact retains_pure _
  · exact .bind (retains_transition _) fun _ => retains_pure _
  · exact retains_raise _

/-- No instruction gives up containers. -/
theorem step_retains : Retains (step host nested) := by
  intro s
  by_cases hinvokes : s.Invokes
  · obtain ⟨id, symbol, routine, -, -, -, ⟨hnext, -⟩ | ⟨hnext, -⟩⟩ := hinvokes
    · rw [step_of_opcode (Effects.nextIs_iff.1 hnext)]
      exact call_retains hhost hnested ⟨recorded .call s, _⟩
    · rw [step_of_opcode (Effects.nextIs_iff.1 hnext)]
      exact pushSymbol_retains hhost hnested ⟨recorded .pushSymbol s, _⟩
  · cases hstep : step host nested s with
    | ok outcome t => exact (becomes_of_step hstep hinvokes).retains
    | error halt t =>
      obtain ⟨s₁, hduring, hworld⟩ := during_of_halt hstep hinvokes
      show s.world.Retains t.world
      rw [hworld]
      exact hduring.retains

end Execution

/-! ## Runs -/

namespace Host

variable {host : Host}

/-- No slice gives up containers, however it ends. -/
theorem runSlice_retains (hhost : host.Retains) (fuel : Nat) :
    ∀ executed, Runner.Retains (host.runSlice fuel executed) := by
  induction fuel with
  | zero =>
    intro executed w c status w' h
    cases h
  | succ fuel ih =>
    intro executed w c status w' h
    have hstep := Execution.step_retains hhost (ih 0) ⟨w, c⟩
    rw [runSlice] at h
    cases heq : Execution.step host (host.runSlice fuel 0) ⟨w, c⟩ with
    | error halt t =>
      rw [heq] at hstep
      simp only [heq] at h
      cases halt with
      | fault e =>
        cases h
        exact hstep
      | unfinished => cases h
    | ok outcome t =>
      rw [heq] at hstep
      simp only [heq] at h
      cases outcome with
      | next =>
        cases hover : host.sliceOver (executed + 1) with
        | true =>
          simp only [hover, if_true] at h
          cases h
          exact hstep
        | false =>
          simp only [hover] at h
          exact World.Retains.trans hstep (ih (executed + 1) _ _ _ _ h)
      | preempt =>
        cases h
        exact hstep
      | done =>
        cases hpop : Context.pop t.context with
        | ok v c' =>
          simp only [hpop] at h
          cases h
          exact hstep
        | error e c' =>
          simp only [hpop] at h
          cases h
          exact hstep

/-- No instruction gives up containers, whatever it calls. -/
theorem Steps.retains {s t : State} {outcome : Outcome} (h : host.Steps s outcome t)
    (hhost : host.Retains) : s.world.Retains t.world := by
  obtain ⟨fuel, hstep⟩ := h
  have hretained := Execution.step_retains hhost (runSlice_retains hhost fuel 0) s
  rw [show host.runSlice fuel 0 = host.resume fuel from rfl, hstep] at hretained
  exact hretained

end Host

/-! ## Scripts -/

/-- A literal is made of new containers. -/
theorem Literal.make_retains (literal : Literal) (w : World) :
    w.Retains (literal.make w).2 := by
  induction literal generalizing w with
  | emptyArray => exact Nat.le_of_lt (Nat.le_of_eq (Array.size_push _).symm)
  | withEntry array key value ihArray ihValue =>
    have hmade := (ihArray w).trans (ihValue (array.make w).2)
    simp only [make]
    split
    · exact hmade.trans (Nat.le_of_eq Array.size_modify.symm)
    · exact hmade
  | iterator array ih =>
    have hmade := ih w
    simp only [make]
    split
    · exact hmade
    · exact hmade
  | address index =>
    cases index with
    | none => exact .refl w
    | some index => exact .refl w
  | _ => exact .refl w

theorem Action.orFail_retains {α : Type} {x : Except NativeError α} {next : α → Routine}
    {w : World} (h : ∀ a, (next a).Retains w) : (orFail x next).Retains w := by
  cases x with
  | ok a => exact h a
  | error e => exact trivial

/-- Every action retains containers if what follows it does. -/
theorem Action.routine_retains (self : NativeId) (arguments : List Value) (result : Value)
    (action : Action) {next : Value → Routine} (hnext : ∀ v w, (next v).Retains w) (w : World) :
    (action.routine self arguments result next).Retains w := by
  cases action with
  | give literal =>
    rintro view rfl
    exact ⟨literal.make_retains view.world, hnext _ _⟩
  | giveArgument index => exact orFail_retains fun v => hnext v w
  | countArguments => exact hnext _ w
  | expect n => exact orFail_retains fun _ => hnext result w
  | sum => exact orFail_retains fun _ => hnext _ w
  | join => exact orFail_retains fun _ => hnext _ w
  | size index => exact orFail_retains fun _ _ _ => hnext _ w
  | put index key literal =>
    refine orFail_retains fun ref => ⟨?_, hnext result _⟩
    exact (literal.make_retains w).trans (Nat.le_of_eq Array.size_modify.symm)
  | preempt => exact hnext result w
  | preempting => exact fun _ _ => hnext _ w
  | focus target => exact hnext result w
  | targets => exact fun _ _ => hnext _ w
  | enter program =>
    intro answer
    cases answer with
    | none => exact hnext result w
    | some e => exact fun _ _ => trivial
  | execute program =>
    intro status w' _
    cases status with
    | done v => exact hnext v w'
    | failed e => exact fun _ _ => trivial
    | preempted context reason => exact trivial
  | tick => exact ⟨.refl w, fun _ _ => hnext _ _⟩
  | setVariable name literal =>
    refine ⟨(literal.make_retains w).trans ?_, hnext result _⟩
    unfold making setVariableTo
    dsimp only
    split
    · exact .refl _
    · exact .refl _
  | giveVariable name => exact fun _ _ => hnext _ w
  | define name program => exact ⟨.refl w, hnext result _⟩
  | fail why => exact trivial

/-- A scripted routine gives up no containers. -/
theorem scriptRoutine_retains (self : NativeId) (arguments : List Value) (result : Value)
    (script : List Action) (w : World) :
    (scriptRoutine self arguments result script).Retains w := by
  induction script generalizing result w with
  | nil => exact trivial
  | cons action rest ih =>
    exact action.routine_retains self arguments result (fun v w => ih v w) w

end MacroMachine
