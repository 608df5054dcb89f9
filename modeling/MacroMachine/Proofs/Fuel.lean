import MacroMachine.Proofs.Balance

/-!
# More fuel changes no answer

Whoever runs a macro bounds the number of its instructions.  A bound that is too small gives no
answer; this module says that every bound that gives an answer gives the same one.

*Nested macros.*  A routine of the host runs macros of its own with the fuel that is left.  So the
argument goes through single instructions: one that gets a better runner for nested macros does
what it did before, unless it was left unfinished (`Execution.Below`).
-/

namespace MacroMachine

/-- The second runner gives every answer of the first. -/
def Runner.Below (runner better : Runner) : Prop :=
  ∀ {world context answer}, runner world context = some answer → better world context = some answer

namespace Execution

variable {α β : Type} {x y : Execution α} {f g : α → Execution β} {runner better : Runner}

/-- The second execution does what the first does, unless the first is left unfinished. -/
def Below (x y : Execution α) : Prop :=
  ∀ s, (∃ t, x s = .error .unfinished t) ∨ y s = x s

theorem Below.refl (x : Execution α) : Below x x :=
  fun _ => .inr rfl

theorem Below.bind (hx : Below x y) (hf : ∀ a, Below (f a) (g a)) :
    Below (x >>= f) (y >>= g) := by
  intro s
  rcases hx s with ⟨t, h⟩ | h
  · exact .inl ⟨t, bind_of_error h⟩
  · cases hr : x s with
    | ok a t =>
      rw [bind_of_ok hr, bind_of_ok (h.trans hr)]
      exact hf a t
    | error halt t =>
      rw [bind_of_error hr, bind_of_error (h.trans hr)]
      exact .inr rfl

/-- A routine depends on how macros are run only through the answers it gets. -/
theorem perform_below (host : Host) (h : Runner.Below runner better) (r : Routine) :
    ∀ preempting, Below (perform host runner preempting r) (perform host better preempting r) := by
  induction r with
  | finish result => exact fun _ => .refl _
  | inspect next ih => exact fun preempting s => ih _ preempting s
  | update change next ih => exact fun preempting s => ih preempting ⟨change s.world, s.context⟩
  | setFocus target next ih =>
    exact fun preempting s => ih preempting ⟨s.world, s.context.setFocus target⟩
  | requestPreemption next ih => exact fun _ => ih true
  | enter program next ih =>
    intro preempting s
    simp only [perform]
    cases Context.enter 0 program s.context with
    | ok _ c => exact ih none preempting ⟨s.world, c⟩
    | error e c => exact ih (some e) preempting ⟨s.world, c⟩
  | execute program arguments next ih =>
    intro preempting s
    simp only [perform]
    cases Context.start program arguments host.limits.stackSize s.context.focusTarget with
    | error e => exact ih (.failed e) preempting s
    | ok inner =>
      cases hrun : runner s.world inner with
      | none => exact .inl ⟨⟨s.world, s.context⟩, by simp only [hrun]⟩
      | some answer =>
        simp only [hrun, h hrun]
        exact ih answer.1 preempting ⟨answer.2, s.context⟩

theorem invoke_below (host : Host) (h : Runner.Below runner better) (id : SymbolId)
    (routine : NativeId) (arguments : List Value) :
    Below (invoke host runner id routine arguments) (invoke host better id routine arguments) := by
  refine .bind (.refl _) fun _ => .bind (perform_below host h _ false) fun answer => ?_
  exact .refl _

theorem symbolValue_below (host : Host) (h : Runner.Below runner better) (id : SymbolId) :
    Below (symbolValue (invoke host runner) id) (symbolValue (invoke host better) id) := by
  refine .bind (.refl _) fun symbol => ?_
  obtain ⟨name, kind, value⟩ := symbol
  cases kind with
  | property =>
    cases value with
    | native routine => exact .bind (invoke_below host h id routine []) fun _ => .refl _
    | _ => exact .refl _
  | _ => exact .refl _

theorem call_below (host : Host) (h : Runner.Below runner better) :
    Below (call (invoke host runner)) (call (invoke host better)) := by
  refine .bind (.refl _) fun id => .bind (.refl _) fun count => .bind (.refl _) fun symbol => ?_
  obtain ⟨name, kind, value⟩ := symbol
  cases kind with
  | native =>
    cases value with
    | native routine =>
      exact .bind (.refl _) fun arguments =>
        .bind (invoke_below host h id routine arguments) fun _ => .refl _
    | _ => exact .refl _
  | function => cases value <;> exact .refl _
  | _ => exact .refl _

/-- Only reading a symbol and calling can come to a routine of the host. -/
theorem carryOut_below (host : Host) (h : Runner.Below runner better) (op : Opcode) :
    Below (carryOut (invoke host runner) op) (carryOut (invoke host better) op) := by
  cases op with
  | pushSymbol =>
    exact .bind (.refl _) fun id => .bind (symbolValue_below host h id) fun _ => .refl _
  | call => exact call_below host h
  | _ => exact .refl _

theorem step_below (host : Host) (h : Runner.Below runner better) :
    Below (step host runner) (step host better) :=
  .bind (.refl _) fun _ => .bind (.refl _) fun op => .bind (.refl _) fun _ =>
    carryOut_below host h op

end Execution

namespace Host

/-- One more unit of fuel keeps every answer. -/
theorem runSlice_succ (host : Host) (fuel executed : Nat) :
    Runner.Below (host.runSlice fuel executed) (host.runSlice (fuel + 1) executed) := by
  induction fuel generalizing executed with
  | zero => exact fun h => nomatch h
  | succ fuel ih =>
    intro world context answer h
    rw [runSlice] at h ⊢
    rcases Execution.step_below host (ih 0) ⟨world, context⟩ with ⟨t, hstep⟩ | hstep
    · rw [hstep] at h
      cases h
    · rw [hstep]
      rcases hresult : Execution.step host (host.runSlice fuel 0) ⟨world, context⟩ with
        ⟨_ | _ | _, t⟩ | ⟨_ | _, t⟩
      · simp only [hresult] at h ⊢
        by_cases hover : host.sliceOver (executed + 1) = true
        · rw [if_pos hover] at h ⊢
          exact h
        · rw [if_neg hover] at h ⊢
          exact ih (executed + 1) h
      all_goals simpa only [hresult] using h

/-- An answer does not depend on the fuel. -/
theorem runSlice_mono (host : Host) {fuel more : Nat} (h : fuel ≤ more) (executed : Nat) :
    Runner.Below (host.runSlice fuel executed) (host.runSlice more executed) := by
  induction h with
  | refl => exact id
  | step _ ih => exact fun hanswer => host.runSlice_succ _ executed (ih hanswer)

theorem resume_mono (host : Host) {fuel more : Nat} (h : fuel ≤ more) :
    Runner.Below (host.resume fuel) (host.resume more) :=
  host.runSlice_mono h 0

theorem execute_mono (host : Host) {fuel more : Nat} (h : fuel ≤ more) {world : World}
    {program : ProgramRef} {arguments : List Value} {target : Option DocumentHandle}
    {answer : Status × World}
    (hanswer : host.execute fuel world program arguments target = some answer) :
    host.execute more world program arguments target = some answer := by
  rw [execute] at hanswer ⊢
  cases hstart : Context.start program arguments host.limits.stackSize target with
  | ok context =>
    simp only [hstart] at hanswer ⊢
    exact host.resume_mono h hanswer
  | error e => simpa only [hstart] using hanswer

end Host

end MacroMachine
