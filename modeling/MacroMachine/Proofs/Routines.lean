import MacroMachine.Proofs.OperandLayout
import MacroMachine.Proofs.StackBound

/-!
# What a routine does to its caller

A routine of the host runs in the middle of an instruction.  It sees neither the stack of its caller
nor its place in the code, and there is one thing only that it can do to them: enter programs on its
caller's behalf.  This module says which programs a routine enters (`Routine.entered`) and that the
context of the caller is afterwards the one in which these programs have been entered one after
the other, but for the focus document (`Execution.perform_enters`).

*Queues.*  A program that was entered last runs first, so the programs wait in a queue that is the
reverse of the order in which they were entered (`Context.queued`).

*Instructions.*  Two instructions run routines: calls (`State.CallsRoutine`) and reads of computed
variables (`State.Reads`).  For each there is one equation that says what it makes of the way in
which its routine finishes.
-/

namespace MacroMachine

/-! ## Programs that wait -/

namespace Context

/-- The context in which a program has been entered without arguments. -/
def entered (p : ProgramRef) (c : Context) : Context :=
  { c with
    stack := withFrame c.stack (some c.pc) (some c.fp) 0 p.program.locals.length
    fp := c.stack.size + 4
    pc := ⟨p, 0⟩ }

/-- The context in which programs wait to be run, the first one first: it was entered last. -/
def queued (c : Context) (queue : List ProgramRef) : Context :=
  queue.foldr entered c

variable {c c' : Context} {p : ProgramRef} {queue queue' : List ProgramRef}

@[simp] theorem queued_nil : c.queued [] = c :=
  rfl

@[simp] theorem queued_cons : c.queued (p :: queue) = (c.queued queue).entered p :=
  rfl

theorem queued_append : c.queued (queue ++ queue') = (c.queued queue').queued queue :=
  List.foldr_append

@[simp] theorem limit_queued : (c.queued queue).limit = c.limit := by
  induction queue with
  | nil => rfl
  | cons p queue ih => exact ih

/-- The focus document plays no part in entering programs. -/
theorem queued_setFocus (target : Option DocumentHandle) :
    (c.setFocus target).queued queue = (c.queued queue).setFocus target := by
  induction queue with
  | nil => rfl
  | cons p queue ih =>
    rw [queued_cons, ih]
    rfl

theorem size_queued_cons : (c.queued (p :: queue)).stack.size =
    (c.queued queue).stack.size + 4 + p.program.locals.length :=
  size_withFrame _ _ _ _

theorem size_le_queued : c.stack.size ≤ (c.queued queue).stack.size := by
  induction queue with
  | nil => exact Nat.le_refl _
  | cons p queue ih =>
    rw [size_queued_cons]
    omega

/-- The two contexts differ in the focus document at most. -/
structure SamePlace (c c' : Context) : Prop where
  stack : c.stack = c'.stack
  fp : c.fp = c'.fp
  pc : c.pc = c'.pc
  limit : c.limit = c'.limit

/-- Where the code goes on: at the beginning of the first program that waits, if there is one. -/
theorem pc_queued : (c.queued queue).pc = (queue.head?.map (⟨·, 0⟩)).getD c.pc := by
  cases queue with
  | nil => rfl
  | cons p queue => rfl

/-- A program is entered if there is room for its frame. -/
theorem enter_zero_of_room (h : c.stack.size + (4 + p.program.locals.length) ≤ c.limit) :
    enter 0 p c = .ok () (c.entered p) :=
  pushFrame_of_room _ _ (Nat.zero_le _) h

theorem enter_zero_cases (p : ProgramRef) (c : Context) :
    c.stack.size + (4 + p.program.locals.length) ≤ c.limit ∧ enter 0 p c = .ok () (c.entered p) ∨
      ∃ e, enter 0 p c = .error e c := by
  rcases pushFrame_cases (some c.pc) (some c.fp) 0 p c with ⟨-, hlimit, heq⟩ | ⟨e, -, heq⟩
  · exact .inl ⟨hlimit, heq⟩
  · exact .inr ⟨e, heq⟩

end Context

/-! ## Programs that a routine enters -/

/-- The programs that a routine enters on its caller's behalf if it starts in this state, in the
order in which it enters them. -/
def Routine.entered (host : Host) (nested : Runner) : Routine → Bool → State → List ProgramRef
  | .finish _, _, _ => []
  | .inspect next, preempting, s =>
    (next { world := s.world, runTarget := s.context.runTarget
            focusTarget := s.context.focusTarget, preempting }).entered host nested preempting s
  | .update change next, preempting, s =>
    next.entered host nested preempting ⟨change s.world, s.context⟩
  | .setFocus target next, preempting, s =>
    next.entered host nested preempting ⟨s.world, s.context.setFocus target⟩
  | .requestPreemption next, _, s => next.entered host nested true s
  | .enter p next, preempting, s =>
    match Context.enter 0 p s.context with
    | .ok () c => p :: (next none).entered host nested preempting ⟨s.world, c⟩
    | .error e c => (next (some e)).entered host nested preempting ⟨s.world, c⟩
  | .execute p arguments next, preempting, s =>
    match Context.start p arguments host.limits.stackSize s.context.focusTarget with
    | .error e => (next (.failed e)).entered host nested preempting s
    | .ok inner =>
      match nested s.world inner with
      | some (status, world) => (next status).entered host nested preempting ⟨world, s.context⟩
      | none => []

section Performing

variable {host : Host} {nested : Runner} {preempting : Bool} {r : Routine} {s t : State}
  {result : Except NativeError Value × Bool}

/-- A routine leaves its caller with the programs that it has entered, and with a focus document.
What it has entered lies within the limit of the stack. -/
theorem Execution.perform_enters (h : perform host nested preempting r s = .ok result t) :
    t.context = (s.context.queued (r.entered host nested preempting s).reverse).setFocus
        t.context.focusTarget ∧
      (r.entered host nested preempting s = [] ∨ t.context.stack.size ≤ t.context.limit) := by
  induction r generalizing preempting s with
  | finish result =>
    cases h
    exact ⟨rfl, .inl rfl⟩
  | inspect next ih => exact ih _ h
  | update change next ih => exact @ih _ ⟨change s.world, s.context⟩ h
  | setFocus target next ih =>
    have hnext := @ih _ ⟨s.world, s.context.setFocus target⟩ h
    rw [Context.queued_setFocus] at hnext
    exact hnext
  | requestPreemption next ih => exact ih h
  | enter p next ih =>
    obtain ⟨w, c⟩ := s
    rcases Context.enter_zero_cases p c with ⟨hroom, heq⟩ | ⟨e, heq⟩
    · simp only [perform, heq] at h
      obtain ⟨hcontext, hrest⟩ := ih none h
      simp only [Routine.entered, heq, List.reverse_cons]
      refine ⟨Context.queued_append ▸ hcontext, .inr ?_⟩
      rcases hrest with hnone | hfits
      · rw [hcontext, hnone]
        show (withFrame _ _ _ _ _).size ≤ c.limit
        rw [size_withFrame, Nat.add_assoc]
        exact hroom
      · exact hfits
    · simp only [perform, heq] at h
      simp only [Routine.entered, heq]
      exact ih (some e) h
  | execute p arguments next ih =>
    obtain ⟨w, c⟩ := s
    cases hstart : Context.start p arguments host.limits.stackSize c.focusTarget with
    | error e =>
      simp only [perform, hstart] at h
      simp only [Routine.entered, hstart]
      exact ih (.failed e) h
    | ok inner =>
      cases hnested : nested w inner with
      | none =>
        simp only [perform, hstart, hnested] at h
        cases h
      | some answer =>
        obtain ⟨status, w'⟩ := answer
        simp only [perform, hstart, hnested] at h
        simp only [Routine.entered, hstart, hnested]
        exact @ih status _ ⟨w', c⟩ h

theorem Execution.perform_samePlace (h : perform host nested preempting r s = .ok result t) :
    t.context.SamePlace (s.context.queued (r.entered host nested preempting s).reverse) := by
  rw [(perform_enters h).1]
  exact ⟨rfl, rfl, rfl, rfl⟩

theorem Execution.perform_fits (h : perform host nested preempting r s = .ok result t)
    (hne : r.entered host nested preempting s ≠ []) :
    (s.context.queued (r.entered host nested preempting s).reverse).stack.size ≤
      s.context.limit := by
  have hplace := perform_samePlace h
  rw [← hplace.stack, ← Context.limit_queued, ← hplace.limit]
  exact (perform_enters h).2.resolve_left hne

/-- A call of a routine gives what the routine finishes with. -/
theorem Execution.invoke_eq_ok_iff {id : SymbolId} {routine : NativeId} {arguments : List Value}
    {v : Value} : invoke host nested id routine arguments s = .ok (v, preempting) t ↔
      perform host nested false (host.routine routine arguments) (s.calling routine arguments) =
        .ok (.ok v, preempting) t := by
  constructor
  · intro h
    obtain ⟨_, s', hcalls, hrest⟩ := bind_eq_ok h
    cases hcalls
    obtain ⟨⟨answer, b⟩, s', hperform, hend⟩ := bind_eq_ok hrest
    cases answer with
    | ok v' =>
      cases hend
      exact hperform
    | error why => cases hend
  · intro h
    have hcalls : modifyWorld (fun w =>
        { w with calls := w.calls.push { routine, arguments, store := w.store } }) s =
        .ok () (s.calling routine arguments) := rfl
    unfold invoke
    rw [bind_of_ok hcalls, bind_of_ok h]
    rfl

/-- The result of a routine is put on the stack if a marker asks for it. -/
theorem Execution.deliver_eq_ok_iff {id : SymbolId} {v : Value} :
    deliver id v s = .ok () t ↔
      s.context.nextIs .fetchResult = false ∧ t = s ∨
      s.context.nextIs .fetchResult = true ∧ v.isUnset = false ∧
        s.context.stack.size < s.context.limit ∧
        t = ⟨s.world, { s.context with
          stack := s.context.stack.push v, pc := s.context.pc.advance 1 }⟩ := by
  have hcontext : context s = .ok s.context s := rfl
  unfold deliver
  rw [bind_of_ok hcontext]
  cases hnext : s.context.nextIs .fetchResult with
  | false =>
    constructor
    · intro h
      cases h
      exact .inl ⟨rfl, rfl⟩
    · rintro (⟨-, rfl⟩ | ⟨hmarked, -⟩)
      · rfl
      · cases hmarked
  | true =>
    rw [if_pos rfl]
    cases hunset : v.isUnset with
    | true =>
      constructor
      · intro h
        cases h
      · rintro (⟨hunmarked, -⟩ | ⟨-, hset, -⟩)
        · cases hunmarked
        · cases hset
    | false =>
      obtain ⟨w, c⟩ := s
      by_cases hroom : c.stack.size < c.limit
      · have hpush : Context.push v c = .ok () { c with stack := c.stack.push v } := by
          simp only [Context.push, if_neg (Nat.not_le.2 hroom)]
        have hdeliver : (push v >>= fun _ => transition Context.skip) ⟨w, c⟩ = .ok ()
            ⟨w, { c with stack := c.stack.push v, pc := c.pc.advance 1 }⟩ :=
          bind_of_ok (transition_of_ok hpush)
        constructor
        · intro h
          cases hdeliver.symm.trans h
          exact .inr ⟨rfl, rfl, hroom, rfl⟩
        · rintro (⟨hunmarked, -⟩ | ⟨-, -, -, rfl⟩)
          · cases hunmarked
          · exact hdeliver
      · have hpush : Context.push v c = .error .stackOverflow c := by
          simp only [Context.push, if_pos (Nat.not_lt.1 hroom)]
        constructor
        · intro h
          cases (bind_of_error (transition_of_error hpush)).symm.trans h
        · rintro (⟨hunmarked, -⟩ | ⟨-, -, hroom', -⟩)
          · cases hunmarked
          · exact absurd hroom' hroom

end Performing

/-! ## Calls of routines -/

/-- The state in which a routine begins to run, called by an instruction of so many slots that has
left this much of the stack. -/
def State.serving (s : State) (op : Opcode) (slots : Nat) (base : Array Value) (routine : NativeId)
    (arguments : List Value) : State :=
  State.calling ⟨Execution.recorded op s, { s.context with
    stack := base, pc := s.context.pc.advance slots }⟩ routine arguments

/-- The next instruction calls a routine with these arguments, which lie on top of the stack. -/
structure State.CallsRoutine (s : State) (id : SymbolId) (routine : NativeId)
    (arguments : List Value) (base : Array Value) : Prop where
  opcode : s.context.pc.slot? = some (.op .call)
  name : (s.context.pc.advance 1).slot? = some (.symbol id)
  count : ∃ n : Int64, (s.context.pc.advance 2).slot? = some (.immediate n) ∧
    n.toInt = arguments.length
  native : ∃ symbol, s.world.symbols.get? id = some symbol ∧ symbol.kind = .native ∧
    symbol.value = .native routine
  stack : s.context.stack = base ++ arguments.toArray

section Calls

variable {host : Host} {nested : Runner} {s t : State} {id : SymbolId} {routine : NativeId}
  {arguments : List Value} {base : Array Value} {outcome : Outcome}

theorem Context.popMany_of_stack {c : Context} (h : c.stack = base ++ arguments.toArray) :
    popMany arguments.length c = .ok arguments { c with stack := base } := by
  have hle : arguments.length ≤ c.stack.size := by simp [h]
  have hkept : c.stack.size - arguments.length = base.size := by simp [h]
  simp only [popMany, if_pos hle, hkept]
  rw [h]
  simp

theorem Context.popMany_eq_ok {c c' : Context} {n : Nat} (h : popMany n c = .ok arguments c') :
    arguments.length = n ∧ ∃ base : Array Value, c.stack = base ++ arguments.toArray := by
  unfold popMany at h
  split at h
  · next hle =>
    cases h
    refine ⟨?_, c.stack.extract 0 (c.stack.size - n), ?_⟩
    · rw [Array.length_toList, Array.size_extract]
      omega
    · rw [Array.toArray_toList, Array.extract_append_extract]
      simp
  · cases h

/-- A count that is fetched is what the operand says. -/
theorem Context.fetchCount_eq_ok {c c' : Context} {n : Nat} (h : fetchCount c = .ok n c') :
    (∃ m : Int64, c.pc.slot? = some (.immediate m) ∧ m.toInt = n) ∧
      c' = { c with pc := c.pc.advance 1 } := by
  rcases fetchImmediate_cases c with ⟨m, hslot, heq⟩ | ⟨-, d, heq⟩
  · by_cases hneg : m.toInt < 0
    · simp [fetchCount, heq, hneg] at h
    · simp only [fetchCount, heq, if_neg hneg] at h
      cases h
      exact ⟨⟨m, hslot, (Int.toNat_of_nonneg (Int.not_lt.1 hneg)).symm⟩, rfl⟩
  · simp [fetchCount, heq] at h

/-- A call of a routine runs it and sees to its result. -/
theorem State.CallsRoutine.step_eq (h : s.CallsRoutine id routine arguments base) :
    Execution.step host nested s = (do
      let answer ← Execution.invoke host nested id routine arguments
      Execution.deliver id answer.1
      return if answer.2 then .preempt else .next : Execution Outcome)
      ⟨Execution.recorded .call s, { s.context with
        stack := base, pc := s.context.pc.advance 3 }⟩ := by
  obtain ⟨w, c⟩ := s
  obtain ⟨n, hslot, hn⟩ := h.count
  obtain ⟨symbol, hsymbol, hkind, hvalue⟩ := h.native
  have hname := h.name
  rw [Execution.step_of_opcode h.opcode]
  show Execution.call (Execution.invoke host nested) _ = _
  have hfetch : Context.fetchSymbol { c with pc := c.pc.advance 1 } =
      .ok id { c with pc := c.pc.advance 2 } := by
    simp only [Context.fetchSymbol, hname]
    rfl
  have hcount : Context.fetchCount { c with pc := c.pc.advance 2 } =
      .ok arguments.length { c with pc := c.pc.advance 3 } := by
    have hneg : ¬ n.toInt < 0 := by omega
    simp only [Context.fetchCount, Context.fetchImmediate, hslot, if_neg hneg]
    rw [hn]
    rfl
  have hpop : Context.popMany arguments.length { c with pc := c.pc.advance 3 } =
      .ok arguments { c with pc := c.pc.advance 3, stack := base } :=
    Context.popMany_of_stack h.stack
  have hfound : Execution.symbol id
      ⟨Execution.recorded .call ⟨w, c⟩, { c with pc := c.pc.advance 3 }⟩ =
      .ok symbol ⟨Execution.recorded .call ⟨w, c⟩, { c with pc := c.pc.advance 3 }⟩ := by
    simp only [Execution.symbol, Execution.recorded]
    rw [hsymbol]
  unfold Execution.call
  rw [Execution.bind_of_ok (Execution.transition_of_ok hfetch),
    Execution.bind_of_ok (Execution.transition_of_ok hcount), Execution.bind_of_ok hfound]
  simp only [hkind, hvalue]
  rw [Execution.bind_of_ok (Execution.transition_of_ok hpop)]

/-- A call of a routine succeeds if the routine does and the result can be handed over. -/
theorem State.CallsRoutine.step_eq_ok_iff (h : s.CallsRoutine id routine arguments base) :
    Execution.step host nested s = .ok outcome t ↔
      ∃ v preempting u, Execution.perform host nested false (host.routine routine arguments)
          (s.serving .call 3 base routine arguments) = .ok (.ok v, preempting) u ∧
        Execution.deliver id v u = .ok () t ∧
        outcome = if preempting then .preempt else .next := by
  rw [h.step_eq]
  constructor
  · intro hstep
    obtain ⟨⟨v, preempting⟩, u, hinvoke, hrest⟩ := Execution.bind_eq_ok hstep
    obtain ⟨_, t', hdeliver, hend⟩ := Execution.bind_eq_ok hrest
    cases hend
    exact ⟨v, preempting, u, Execution.invoke_eq_ok_iff.1 hinvoke, hdeliver, rfl⟩
  · rintro ⟨v, preempting, u, hperform, hdeliver, rfl⟩
    rw [Execution.bind_of_ok (Execution.invoke_eq_ok_iff.2 hperform)]
    exact Execution.bind_of_ok hdeliver

/-- A call of a routine that succeeds has found its arguments. -/
theorem State.callsRoutine_of_step {symbol : Symbol}
    (hcall : s.context.pc.slot? = some (.op .call))
    (hname : (s.context.pc.advance 1).slot? = some (.symbol id))
    (hget : s.world.symbols.get? id = some symbol) (hkind : symbol.kind = .native)
    (hvalue : symbol.value = .native routine)
    (hstep : Execution.step host nested s = .ok outcome t) :
    ∃ arguments base, s.CallsRoutine id routine arguments base := by
  obtain ⟨w, c⟩ := s
  rw [Execution.step_of_opcode hcall] at hstep
  obtain ⟨id', s₁, hfetch, h₁⟩ := Execution.bind_eq_ok hstep
  obtain ⟨hname', rfl⟩ := Execution.fetchSymbol_eq_ok hfetch
  cases hname.symm.trans hname'
  obtain ⟨count, s₂, hcount, h₂⟩ := Execution.bind_eq_ok h₁
  obtain ⟨c₂, hfetched, rfl⟩ := Execution.transition_eq_ok hcount
  obtain ⟨hslot, rfl⟩ := Context.fetchCount_eq_ok hfetched
  obtain ⟨symbol', s₃, hsymbol, h₃⟩ := Execution.bind_eq_ok h₂
  obtain ⟨rfl, hget'⟩ := Execution.symbol_eq_ok hsymbol
  cases hget.symm.trans hget'
  simp only [hkind, hvalue] at h₃
  obtain ⟨arguments, s₄, hpop, -⟩ := Execution.bind_eq_ok h₃
  obtain ⟨c₄, hpopped, -⟩ := Execution.transition_eq_ok hpop
  obtain ⟨hlength, base, hstack⟩ := Context.popMany_eq_ok hpopped
  exact ⟨arguments, base, hcall, hname, hlength ▸ hslot, ⟨symbol, hget, hkind, hvalue⟩, hstack⟩

/-- The programs that the routine enters when it is called. -/
def State.enters (s : State) (host : Host) (nested : Runner) (routine : NativeId)
    (arguments : List Value) (base : Array Value) : List ProgramRef :=
  (host.routine routine arguments).entered host nested false
    (s.serving .call 3 base routine arguments)

/-- Where the code goes on after a call of a routine that has entered these programs: at the
beginning of the last one, or after the call if there is none. -/
def State.resumption (s : State) (programs : List ProgramRef) : CodeAddress :=
  (programs.getLast?.map (⟨·, 0⟩)).getD s.backAddress

/-- A routine leaves its caller at the last program that it has entered. -/
theorem State.pc_of_perform {result : Except NativeError Value × Bool}
    (h : Execution.perform host nested false (host.routine routine arguments)
      (s.serving .call 3 base routine arguments) = .ok result t) :
    t.context.pc = s.resumption (s.enters host nested routine arguments base) := by
  rw [(Execution.perform_enters h).1]
  show (Context.queued _ _).pc = _
  rw [Context.pc_queued, List.head?_reverse]
  rfl

/-- Only a call of a routine suspends its macro. -/
theorem State.callsRoutine_of_preempt (h : Execution.step host nested s = .ok .preempt t) :
    ∃ id routine arguments base, s.CallsRoutine id routine arguments base := by
  by_cases hinvokes : s.Invokes
  · obtain ⟨id, symbol, routine, hname, hget, hvalue, ⟨hnext, hkind⟩ | ⟨hnext, -⟩⟩ := hinvokes
    · obtain ⟨arguments, base, hcalls⟩ := State.callsRoutine_of_step (Effects.nextIs_iff.1 hnext)
        hname hget hkind hvalue h
      exact ⟨id, routine, arguments, base, hcalls⟩
    · rw [Execution.step_of_opcode (Effects.nextIs_iff.1 hnext)] at h
      obtain ⟨id', s₁, -, h₁⟩ := Execution.bind_eq_ok h
      obtain ⟨v, s₂, -, h₂⟩ := Execution.bind_eq_ok h₁
      split at h₂
      · cases h₂
      · obtain ⟨_, s₃, -, hend⟩ := Execution.bind_eq_ok h₂
        cases hend
  · cases becomes_of_step h hinvokes

end Calls

/-! ## Reads of symbols -/

/-- The next instruction reads a symbol. -/
structure State.Reads (s : State) (id : SymbolId) : Prop where
  opcode : s.context.pc.slot? = some (.op .pushSymbol)
  name : (s.context.pc.advance 1).slot? = some (.symbol id)

/-- The state in which the value of the symbol that the next instruction reads is looked up. -/
def State.reading (s : State) : State :=
  ⟨Execution.recorded .pushSymbol s, { s.context with pc := s.context.pc.advance 2 }⟩

section Reads

variable {host : Host} {nested : Runner} {s t : State} {id : SymbolId} {outcome : Outcome}

/-- A read looks the value up and puts it on the stack. -/
theorem State.Reads.step_eq (h : s.Reads id) :
    Execution.step host nested s = (do
      let value ← Execution.symbolValue (Execution.invoke host nested) id
      if value.isUnset then
        Execution.raise (.unsetVariable (← Execution.symbolName id))
      else
        Execution.push value
        return .next : Execution Outcome) s.reading := by
  have hname := h.name
  have hfetch : Context.fetchSymbol { s.context with pc := s.context.pc.advance 1 } =
      .ok id { s.context with pc := s.context.pc.advance 2 } := by
    simp only [Context.fetchSymbol, hname]
    rfl
  rw [Execution.step_of_opcode h.opcode]
  exact Execution.bind_of_ok (Execution.transition_of_ok hfetch)

/-- A read succeeds if there is a value and room for it. -/
theorem State.Reads.step_eq_ok_iff (h : s.Reads id) :
    Execution.step host nested s = .ok outcome t ↔
      ∃ v u, Execution.symbolValue (Execution.invoke host nested) id s.reading = .ok v u ∧
        v.isUnset = false ∧ u.context.stack.size < u.context.limit ∧ outcome = .next ∧
        t = u.withStack (u.context.stack.push v) := by
  rw [h.step_eq]
  constructor
  · intro hstep
    obtain ⟨v, u, hvalue, hrest⟩ := Execution.bind_eq_ok hstep
    split at hrest
    · cases hrest
    · next hset =>
      obtain ⟨_, t', hpush, hend⟩ := Execution.bind_eq_ok hrest
      cases hend
      obtain ⟨c, hpushed, rfl⟩ := Execution.transition_eq_ok hpush
      unfold Context.push at hpushed
      split at hpushed
      · cases hpushed
      · next hroom =>
        cases hpushed
        exact ⟨v, u, hvalue, Bool.eq_false_iff.2 hset, Nat.not_le.1 hroom, rfl, rfl⟩
  · rintro ⟨v, u, hvalue, hset, hroom, rfl, rfl⟩
    have hpush : Context.push v u.context =
        .ok () { u.context with stack := u.context.stack.push v } := by
      simp only [Context.push, if_neg (Nat.not_le.2 hroom)]
    rw [Execution.bind_of_ok hvalue, hset]
    exact Execution.bind_of_ok (Execution.transition_of_ok hpush)

end Reads

end MacroMachine
