import MacroMachine.Machine.Run

/-!
# Runs

A run is a sequence of instructions of one macro.  Between two of them the macro may lie suspended,
and meanwhile the host may do other things.  This module has the relations that theorems about runs
speak of (`Host.Steps`, `Host.Runs`, `Host.Trail`), what a step is at an opcode or at a call of a
function, and a small macro at which they can be tried.
-/

namespace MacroMachine

namespace Host

/-- One instruction, and what it means for its macro.  The macros that routines run within it must
come to an answer, whatever bound that takes. -/
def Steps (host : Host) (s : State) (outcome : Outcome) (t : State) : Prop :=
  ∃ fuel, Execution.step host (host.resume fuel) s = .ok outcome t

/-- A run that is not over yet.  Every instruction is executed in a context that is `allowed`, and
between instructions a state may give way to another one that `meanwhile` relates to it. -/
inductive Runs (host : Host) (allowed : Context → Prop) (meanwhile : State → State → Prop)
    (s : State) : State → Prop where
  | start : Runs host allowed meanwhile s s
  | step {t u : State} {outcome : Outcome} : Runs host allowed meanwhile s t →
      allowed t.context → host.Steps t outcome u → outcome ≠ .done →
      Runs host allowed meanwhile s u
  | pause {t u : State} : Runs host allowed meanwhile s t → meanwhile t u →
      Runs host allowed meanwhile s u

/-- A run with what it has executed: the states before and after each instruction, the latest
first. -/
inductive Trail (host : Host) (allowed : Context → Prop) (meanwhile : State → State → Prop)
    (s : State) : List (State × State) → State → Prop where
  | start : Trail host allowed meanwhile s [] s
  | step {past : List (State × State)} {t u : State} {outcome : Outcome} :
      Trail host allowed meanwhile s past t → allowed t.context → host.Steps t outcome u →
      outcome ≠ .done → Trail host allowed meanwhile s ((t, u) :: past) u
  | pause {past : List (State × State)} {t u : State} : Trail host allowed meanwhile s past t →
      meanwhile t u → Trail host allowed meanwhile s past u

section Slices

variable {host : Host} {allowed : Context → Prop} {meanwhile : State → State → Prop} {s t u : State}

/-- A run with one more instruction before it. -/
theorem Runs.after_step {outcome : Outcome} (h : host.Runs allowed meanwhile t u)
    (hs : allowed s.context) (hstep : host.Steps s outcome t) (hgoes : outcome ≠ .done) :
    host.Runs allowed meanwhile s u := by
  induction h with
  | start => exact .step .start hs hstep hgoes
  | step _ hnow hnext hne ih => exact .step ih hnow hnext hne
  | pause _ hpause ih => exact .pause ih hpause

/-- A slice that fails is a run to an instruction that fails.  Only the stack of a macro that is
over may be empty instead. -/
theorem runs_of_failed (meanwhile : State → State → Prop) {fuel executed : Nat} {w w' : World}
    {c : Context} {e : Fault} (h : host.runSlice fuel executed w c = some (.failed e, w')) :
    e = .stackUnderflow ∨ ∃ s t fuel', host.Runs (fun _ => True) meanwhile ⟨w, c⟩ s ∧
      Execution.step host (host.resume fuel') s = .error (.fault e) t := by
  induction fuel generalizing executed w c with
  | zero => cases h
  | succ fuel ih =>
    rw [runSlice] at h
    split at h
    · next s hstep =>
      split at h
      · cases h
      · rcases ih h with hunderflow | ⟨t, t', fuel', hrun, hfails⟩
        · exact .inl hunderflow
        · exact .inr ⟨t, t', fuel', hrun.after_step trivial ⟨fuel, hstep⟩ (by decide), hfails⟩
    · cases h
    · split at h
      · cases h
      · next hpop =>
        unfold Context.pop at hpop
        split at hpop
        · cases hpop
        · cases hpop
          cases h
          exact .inl rfl
    · next s hstep =>
      cases h
      exact .inr ⟨_, s, fuel, .start, hstep⟩
    · cases h

end Slices

/-- Anything may happen to the world. -/
def AnyWorld (s t : State) : Prop :=
  t.context = s.context

end Host

/-! ## Executing step by step -/

namespace Execution

variable {α β : Type} {x : Execution α} {f : α → Execution β} {s t : State} {a : α}

theorem bind_of_ok (h : x s = .ok a t) : (x >>= f) s = f a t := by
  show EStateM.bind x f s = f a t
  rw [EStateM.bind, h]

theorem bind_of_error {halt : Halt} (h : x s = .error halt t) : (x >>= f) s = .error halt t := by
  show EStateM.bind x f s = .error halt t
  rw [EStateM.bind, h]

theorem transition_of_ok {tr : Transition α} {w : World} {c c' : Context} (h : tr c = .ok a c') :
    transition tr ⟨w, c⟩ = .ok a ⟨w, c'⟩ := by
  simp only [transition, h]

theorem transition_of_error {tr : Transition α} {w : World} {c c' : Context} {e : Fault}
    (h : tr c = .error e c') : transition tr ⟨w, c⟩ = .error (.fault e) ⟨w, c'⟩ := by
  simp only [transition, h]

theorem view_of_ok {g : Context → Except Fault α} (h : g s.context = .ok a) :
    view g s = .ok a s := by
  simp only [view, h]

theorem view_of_error {g : Context → Except Fault α} {e : Fault} (h : g s.context = .error e) :
    view g s = .error (.fault e) s := by
  simp only [view, h]

/-- The world with one more instruction on record. -/
def recorded (op : Opcode) (s : State) : World :=
  { s.world with
    dispatches := s.world.dispatches.push ⟨op, s.context.pc.index, s.context.stack.size⟩ }

/-- A step at an opcode carries it out. -/
theorem step_of_opcode {host : Host} {nested : Runner} {op : Opcode}
    (h : s.context.pc.slot? = some (.op op)) :
    step host nested s = carryOut (invoke host nested) op
      ⟨recorded op s, { s.context with pc := s.context.pc.advance 1 }⟩ := by
  obtain ⟨w, c⟩ := s
  have hfetch : Context.fetchOpcode c = .ok op { c with pc := c.pc.advance 1 } := by
    simp only [Context.fetchOpcode, h]
  have hcontext : context ⟨w, c⟩ = .ok c ⟨w, c⟩ := rfl
  unfold step
  rw [bind_of_ok hcontext, bind_of_ok (transition_of_ok hfetch)]
  rfl

/-- A step at the end of the code is a return without a value. -/
theorem step_of_end {host : Host} {nested : Runner} (h : s.context.pc.slot? = none) :
    step host nested s = returnNothing ⟨recorded .returnNothing s, s.context⟩ := by
  obtain ⟨w, c⟩ := s
  have hfetch : Context.fetchOpcode c = .ok .returnNothing c := by
    simp only [Context.fetchOpcode, h]
  have hcontext : context ⟨w, c⟩ = .ok c ⟨w, c⟩ := rfl
  unfold step
  rw [bind_of_ok hcontext, bind_of_ok (transition_of_ok hfetch)]
  rfl

end Execution

/-! ## Calls -/

/-- The next instruction calls a function with a number of arguments. -/
structure State.CallsFunction (s : State) (id : SymbolId) (p : ProgramRef) (count : Nat) :
    Prop where
  opcode : s.context.pc.slot? = some (.op .call)
  name : (s.context.pc.advance 1).slot? = some (.symbol id)
  count : ∃ n : Int64, (s.context.pc.advance 2).slot? = some (.immediate n) ∧ n.toInt = count
  function : ∃ symbol, s.world.symbols.get? id = some symbol ∧ symbol.kind = .function ∧
    symbol.value = .program p

/-- Where the code goes on after a call: after its operands. -/
def State.backAddress (s : State) : CodeAddress :=
  s.context.pc.advance 3

/-- A call of a function enters its program. -/
theorem State.CallsFunction.step_eq {host : Host} {nested : Runner} {s : State} {id : SymbolId}
    {p : ProgramRef} {count : Nat} (h : s.CallsFunction id p count) :
    Execution.step host nested s =
      match Context.enter count p { s.context with pc := s.backAddress } with
      | .ok () c => .ok .next ⟨Execution.recorded .call s, c⟩
      | .error e c => .error (.fault e) ⟨Execution.recorded .call s, c⟩ := by
  obtain ⟨w, c⟩ := s
  obtain ⟨n, hslot, hn⟩ := h.count
  obtain ⟨symbol, hsymbol, hkind, hvalue⟩ := h.function
  have hname := h.name
  rw [Execution.step_of_opcode h.opcode]
  show Execution.call (Execution.invoke host nested) _ = _
  have hfetch : Context.fetchSymbol { c with pc := c.pc.advance 1 } =
      .ok id { c with pc := c.pc.advance 2 } := by
    simp only [Context.fetchSymbol, hname]
    rfl
  have hcount : Context.fetchCount { c with pc := c.pc.advance 2 } =
      .ok count { c with pc := c.pc.advance 3 } := by
    have hneg : ¬ n.toInt < 0 := by omega
    simp only [Context.fetchCount, Context.fetchImmediate, hslot, if_neg hneg]
    rw [hn]
    rfl
  unfold Execution.call
  rw [Execution.bind_of_ok (Execution.transition_of_ok hfetch),
    Execution.bind_of_ok (Execution.transition_of_ok hcount)]
  have hfound : Execution.symbol id
      ⟨Execution.recorded .call ⟨w, c⟩, { c with pc := c.pc.advance 3 }⟩ =
      .ok symbol ⟨Execution.recorded .call ⟨w, c⟩, { c with pc := c.pc.advance 3 }⟩ := by
    simp only [Execution.symbol, Execution.recorded]
    rw [hsymbol]
  rw [Execution.bind_of_ok hfound]
  simp only [hkind, hvalue, State.backAddress]
  cases henter : Context.enter count p { c with pc := c.pc.advance 3 } with
  | ok _ c' => exact Execution.bind_of_ok (Execution.transition_of_ok henter)
  | error e c' => exact Execution.bind_of_error (Execution.transition_of_error henter)

/-! ## A macro to try -/

namespace Sample

/-- A function that gives the number of its arguments. -/
def countArguments : ProgramRef :=
  ⟨1, ⟨#[.op .pushArgumentCount, .op .returnValue], []⟩⟩

/-- A macro that calls the function with one argument and wants the result. -/
def callCount : ProgramRef :=
  ⟨0, ⟨#[.op .pushArgumentCount, .op .call, .symbol ⟨0⟩, .immediate 1, .op .fetchResult,
    .op .returnValue], []⟩⟩

/-- The world that the macro runs in, with what it has executed so far. -/
def world (dispatches : Array Dispatch) : World :=
  { World.ofSymbols ⟨#[⟨"count", .function, .program countArguments⟩], [⟨0⟩], [], 0, 0⟩ with
    dispatches }

/-- A host without routines, with room for two small frames. -/
def host : Host :=
  ⟨⟨16, none⟩, fun _ _ => .idle⟩

/-- The macro at its start, with one argument. -/
def started : State :=
  ⟨world #[], ⟨#[.text "a", .address none, .frame none, .int 1, .unset], 16, 5, ⟨callCount, 0⟩,
    none, none⟩⟩

/-- The macro about to call the function. -/
def calling : State :=
  ⟨world #[⟨.pushArgumentCount, 0, 5⟩],
    ⟨#[.text "a", .address none, .frame none, .int 1, .unset, .int 1], 16, 5, ⟨callCount, 1⟩,
      none, none⟩⟩

/-- The macro in the function, at its beginning. -/
def called : State :=
  ⟨world #[⟨.pushArgumentCount, 0, 5⟩, ⟨.call, 1, 6⟩],
    ⟨#[.text "a", .address none, .frame none, .int 1, .unset, .int 1,
        .address (some ⟨callCount, 4⟩), .frame (some 5), .int 1, .unset],
      16, 10, ⟨countArguments, 0⟩, none, none⟩⟩

/-- The macro about to return from the function. -/
def returning : State :=
  ⟨world #[⟨.pushArgumentCount, 0, 5⟩, ⟨.call, 1, 6⟩, ⟨.pushArgumentCount, 0, 10⟩],
    ⟨#[.text "a", .address none, .frame none, .int 1, .unset, .int 1,
        .address (some ⟨callCount, 4⟩), .frame (some 5), .int 1, .unset, .int 1],
      16, 10, ⟨countArguments, 1⟩, none, none⟩⟩

theorem started_steps : host.Steps started .next calling :=
  ⟨0, rfl⟩

theorem calling_steps : host.Steps calling .next called :=
  ⟨0, rfl⟩

theorem called_steps : host.Steps called .next returning :=
  ⟨0, rfl⟩

end Sample

end MacroMachine
