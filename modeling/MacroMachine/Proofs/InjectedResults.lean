import MacroMachine.Proofs.Routines

/-!
# Results from outside

A routine may suspend its caller because its result is not known yet.  Whoever has the suspended
macro can put the result in later (`Context.replaceResult`).  That operation knows nothing of the
call.  It looks at the one slot before the place where the macro goes on, and if a marker stands
there it takes the top of the stack to be the result.

This module shows that the guess is right.  If the result of the call was wanted, the macro becomes
the one that it would be had the routine finished with the value put in.  If not, nothing changes,
since the slot is then the last operand of the call or lies before the beginning of a program.
-/

namespace MacroMachine

/-! ## Routines with another result -/

/-- The routine with another result; where it complains, it still does. -/
def Routine.returning (v : Value) : Routine → Routine
  | .finish (.ok _) => .finish (.ok v)
  | .finish (.error why) => .finish (.error why)
  | .inspect next => .inspect fun view => (next view).returning v
  | .update change next => .update change (next.returning v)
  | .setFocus target next => .setFocus target (next.returning v)
  | .requestPreemption next => .requestPreemption (next.returning v)
  | .enter p next => .enter p fun answer => (next answer).returning v
  | .execute p arguments next => .execute p arguments fun status => (next status).returning v

/-- The host with routines that give another result. -/
def Host.returning (host : Host) (v : Value) : Host :=
  { host with routine := fun routine arguments => (host.routine routine arguments).returning v }

/-- A routine with another result does the same otherwise. -/
theorem Execution.perform_returning {host : Host} {nested : Runner} {preempting b : Bool}
    {r : Routine} {s t : State} {u : Value} (v : Value)
    (h : perform host nested preempting r s = .ok (.ok u, b) t) :
    perform (host.returning v) nested preempting (r.returning v) s = .ok (.ok v, b) t := by
  induction r generalizing preempting s with
  | finish result =>
    cases h
    rfl
  | inspect next ih => exact ih _ h
  | update change next ih => exact @ih _ ⟨change s.world, s.context⟩ h
  | setFocus target next ih => exact @ih _ ⟨s.world, s.context.setFocus target⟩ h
  | requestPreemption next ih => exact ih h
  | enter p next ih =>
    obtain ⟨w, c⟩ := s
    cases heq : Context.enter 0 p c with
    | ok _ c' =>
      simp only [perform, Routine.returning, heq] at h ⊢
      exact ih none h
    | error e c' =>
      simp only [perform, Routine.returning, heq] at h ⊢
      exact ih (some e) h
  | execute p arguments next ih =>
    obtain ⟨w, c⟩ := s
    cases hstart : Context.start p arguments host.limits.stackSize c.focusTarget with
    | error e =>
      simp only [perform, Routine.returning, Host.returning, hstart] at h ⊢
      exact ih (.failed e) h
    | ok inner =>
      cases hnested : nested w inner with
      | none =>
        simp only [perform, hstart, hnested] at h
        cases h
      | some answer =>
        obtain ⟨status, w'⟩ := answer
        simp only [perform, Routine.returning, Host.returning, hstart, hnested] at h ⊢
        exact @ih status _ ⟨w', c⟩ h

/-! ## The slot before -/

theorem CodeAddress.slotBefore?_advance (a : CodeAddress) (n : Nat) :
    (a.advance (n + 1)).slotBefore? 1 = (a.advance n).slot? :=
  if_pos (Nat.le_add_left 1 (a.index + n))

namespace Context

variable {c : Context}

/-- Without a marker just before it, a context stays as it is. -/
theorem replaceResult_of_unmarked (v : Value)
    (h : c.pc.slotBefore? 1 ≠ some (.op .fetchResult)) : c.replaceResult v = c :=
  if_neg h

/-- A result that was put on the stack for a marker is the one that is replaced. -/
theorem replaceResult_of_marked (u v : Value) (h : c.pc.slot? = some (.op .fetchResult)) :
    ({ c with stack := c.stack.push u, pc := c.pc.advance 1 } : Context).replaceResult v =
      { c with stack := c.stack.push v, pc := c.pc.advance 1 } := by
  have hbefore : (c.pc.advance 1).slotBefore? 1 = some (.op .fetchResult) :=
    (c.pc.slotBefore?_advance 0).trans h
  have hset : (c.stack.push u).setIfInBounds ((c.stack.push u).size - 1) v = c.stack.push v := by
    rw [Array.size_push, Nat.add_sub_cancel]
    apply Array.ext_getElem?
    intro i
    by_cases hi : i = c.stack.size
    · simp [hi]
    · simp [Array.getElem?_push, hi, Ne.symm hi]
  rw [replaceResult, if_pos hbefore, hset]

end Context

variable {host : Host} {nested : Runner} {s t : State} {id : SymbolId} {routine : NativeId}
  {arguments : List Value} {base : Array Value}

/-- Just before the place where the code goes on after a call there is no marker. -/
theorem State.CallsRoutine.slotBefore?_resumption (h : s.CallsRoutine id routine arguments base)
    (programs : List ProgramRef) :
    (s.resumption programs).slotBefore? 1 ≠ some (.op .fetchResult) := by
  unfold State.resumption
  cases programs.getLast? with
  | none =>
    obtain ⟨n, hslot, -⟩ := h.count
    have hbefore : s.backAddress.slotBefore? 1 = some (.immediate n) :=
      (s.context.pc.slotBefore?_advance 2).trans hslot
    simp only [Option.map_none, Option.getD_none, hbefore]
    intro heq
    cases heq
  | some p =>
    simp [CodeAddress.slotBefore?]

/-! ## The result of a call -/

/-- What comes of putting in a result after a call of a routine: what would have come of the call
had the routine finished with it, if there is a marker where the code goes on, and else nothing. -/
theorem State.CallsRoutine.replaceResult {outcome : Outcome} {v : Value}
    (h : s.CallsRoutine id routine arguments base) (hv : v.isUnset = false)
    (hstep : Execution.step host nested s = .ok outcome t) :
    ((s.resumption (s.enters host nested routine arguments base)).slot? =
        some (.op .fetchResult) →
      Execution.step (host.returning v) nested s =
        .ok outcome ⟨t.world, t.context.replaceResult v⟩) ∧
    ((s.resumption (s.enters host nested routine arguments base)).slot? ≠
        some (.op .fetchResult) → t.context.replaceResult v = t.context) := by
  obtain ⟨u, preempting, s', hperform, hdeliver, rfl⟩ := h.step_eq_ok_iff.1 hstep
  have hpc := State.pc_of_perform hperform
  rw [← hpc]
  have hunmarked := h.slotBefore?_resumption (s.enters host nested routine arguments base)
  rw [← hpc] at hunmarked
  rcases Execution.deliver_eq_ok_iff.1 hdeliver with ⟨hnext, rfl⟩ | ⟨hnext, -, hroom, rfl⟩
  · have hslot : t.context.pc.slot? ≠ some (.op .fetchResult) := by
      simpa only [Context.nextIs, beq_eq_false_iff_ne] using hnext
    exact ⟨fun hmarked => absurd hmarked hslot,
      fun _ => Context.replaceResult_of_unmarked v hunmarked⟩
  · have hslot := Effects.nextIs_iff.1 hnext
    refine ⟨fun _ => ?_, fun hne => absurd hslot hne⟩
    simp only [Context.replaceResult_of_marked u v hslot]
    exact h.step_eq_ok_iff.2 ⟨v, preempting, s', Execution.perform_returning v hperform,
      Execution.deliver_eq_ok_iff.2 (.inr ⟨hnext, hv, hroom, rfl⟩), rfl⟩

/-- A slice that ends because a routine asked for it has come by a run to the call of that
routine. -/
theorem Host.runs_of_requested {fuel executed : Nat} {w w' : World} {c c' : Context}
    (meanwhile : State → State → Prop)
    (h : host.runSlice fuel executed w c = some (.preempted c' .requested, w')) :
    ∃ s fuel', host.Runs (fun _ => True) meanwhile ⟨w, c⟩ s ∧
      Execution.step host (host.resume fuel') s = .ok .preempt ⟨w', c'⟩ := by
  induction fuel generalizing executed w c with
  | zero => cases h
  | succ fuel ih =>
    rw [runSlice] at h
    split at h
    · next s hstep =>
      split at h
      · cases h
      · obtain ⟨t, fuel', hrun, hlast⟩ := ih h
        exact ⟨t, fuel', hrun.after_step trivial ⟨fuel, hstep⟩ (by decide), hlast⟩
    · next s hstep =>
      cases h
      exact ⟨_, fuel, .start, hstep⟩
    · split at h <;> cases h
    · cases h
    · cases h

namespace Sample

/-- A macro that calls a routine and returns its result. -/
def asker : ProgramRef :=
  ⟨0, ⟨#[.op .call, .symbol ⟨0⟩, .immediate 0, .op .fetchResult, .op .returnValue], []⟩⟩

/-- A host with a routine that suspends its caller. -/
def askingHost : Host :=
  ⟨⟨16, none⟩, fun _ _ => .requestPreemption (.finish (.ok (.int 1)))⟩

/-- The macro at a place in its code, with what it has executed and its operands. -/
def asking (dispatches : Array Dispatch) (calls : Array NativeCall) (operands : Array Value)
    (position : Nat) : State :=
  ⟨{ World.ofSymbols ⟨#[⟨"ask", .native, .native ⟨0⟩⟩], [⟨0⟩], [], 0, 0⟩ with dispatches, calls },
    ⟨#[.address none, .frame none, .int 0, .unset] ++ operands, 16, 4, ⟨asker, position⟩, none,
      none⟩⟩

/-- The macro after it was suspended, with a result. -/
def asked (result : Value) : State :=
  asking #[⟨.call, 0, 4⟩] #[⟨⟨0⟩, [], .empty⟩] #[result] 4

end Sample

/-- A result can be put in after the fact.  A macro that was suspended on request has come by a run
to a call of a routine.  If the result of the routine was wanted, putting in another one makes the
state of the macro the one that the call would have led to had the routine finished with it, so
all that follows is the same.  If it was not, nothing changes.

The result is wanted if a marker stands where the code goes on: after the call or, if the routine
has entered programs, at the beginning of the last one. -/
theorem Host.replaceResult_of_requested {fuel executed : Nat} {w w' : World} {c c' : Context}
    {v : Value} (h : host.runSlice fuel executed w c = some (.preempted c' .requested, w'))
    (hv : v.isUnset = false) :
    ∃ (s : State) (fuel' : Nat) (id : SymbolId) (routine : NativeId) (arguments : List Value)
      (base : Array Value) (programs : List ProgramRef),
      host.Runs (fun _ => True) (fun _ _ => False) ⟨w, c⟩ s ∧
      s.CallsRoutine id routine arguments base ∧
      s.enters host (host.resume fuel') routine arguments base = programs ∧
      Execution.step host (host.resume fuel') s = .ok .preempt ⟨w', c'⟩ ∧
      ((s.resumption programs).slot? = some (.op .fetchResult) →
        Execution.step (host.returning v) (host.resume fuel') s =
          .ok .preempt ⟨w', c'.replaceResult v⟩) ∧
      ((s.resumption programs).slot? ≠ some (.op .fetchResult) → c'.replaceResult v = c') := by
  obtain ⟨s, fuel', hrun, hstep⟩ := Host.runs_of_requested (fun _ _ => False) h
  obtain ⟨id, routine, arguments, base, hcalls⟩ := State.callsRoutine_of_preempt hstep
  obtain ⟨hmarked, hunmarked⟩ := hcalls.replaceResult hv hstep
  exact ⟨s, fuel', id, routine, arguments, base, _, hrun, hcalls, rfl, hstep, hmarked, hunmarked⟩

/-- A result that takes the place of the one that the routine gave. -/
theorem Host.replaceResult_of_requested_at_asker :
    Sample.askingHost.runSlice 1 0 (Sample.asking #[] #[] #[] 0).world
        (Sample.asking #[] #[] #[] 0).context =
      some (.preempted (Sample.asked (.int 1)).context .requested,
        (Sample.asked (.int 1)).world) ∧
    ∃ (s : State) (fuel' : Nat), Execution.step Sample.askingHost
        (Sample.askingHost.resume fuel') s = .ok .preempt (Sample.asked (.int 1)) ∧
      Execution.step (Sample.askingHost.returning (.text "later"))
        (Sample.askingHost.resume fuel') s = .ok .preempt (Sample.asked (.text "later")) := by
  have hslice : Sample.askingHost.runSlice 1 0 (Sample.asking #[] #[] #[] 0).world
      (Sample.asking #[] #[] #[] 0).context = some (.preempted (Sample.asked (.int 1)).context
        .requested, (Sample.asked (.int 1)).world) := rfl
  obtain ⟨s, fuel', -, -, -, -, programs, -, -, -, hstep, hmarked, hunmarked⟩ :=
    Host.replaceResult_of_requested hslice (v := .text "later") rfl
  have hmarker : (s.resumption programs).slot? = some (.op .fetchResult) :=
    Decidable.by_contra fun hne => absurd (hunmarked hne) (by decide)
  exact ⟨hslice, s, fuel', hstep, hmarked hmarker⟩

end MacroMachine
