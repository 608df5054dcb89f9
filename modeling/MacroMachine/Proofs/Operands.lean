import MacroMachine.Proofs.Effects
import MacroMachine.Proofs.Looking

/-!
# Instructions and their operands

Most instructions find their operands on top of the stack and put their results in place of them.
What they make of the operands has nothing to do with what lies below, with the code around, or with
anything else but the arrays that the operands name.  This module gives that a form, in which an
instruction is a partial function of its operands and the store (`Evaluates`).

*Rules.*  An instruction is a sequence of small parts: it takes a value off the stack, converts it,
looks something up, and at last puts a result on the stack.  `Computes` says what a rest of such a
sequence comes to, and there is one rule for each kind of part.  The operands are a list with the
top of the stack at its end, since instructions take the last operand first.
-/

namespace MacroMachine

/-! ## Where an instruction stands -/

/-- The code from an address on begins with these slots. -/
def CodeAddress.Holds : CodeAddress → List Instruction → Prop
  | _, [] => True
  | a, slot :: slots => a.slot? = some slot ∧ (a.advance 1).Holds slots

/-- An instruction is next and finds its operands on top of the stack, the first one deepest. -/
structure State.Poised (s : State) (code : List Instruction) (base : Array Value)
    (operands : List Value) : Prop where
  code : s.context.pc.Holds code
  stack : s.context.stack = base ++ operands.toArray
  fits : s.context.stack.size ≤ s.context.limit

/-- The state behind an instruction that is on record and has left this stack. -/
def State.past (s : State) (op : Opcode) (stack : Array Value) : State :=
  ⟨Execution.recorded op s, { s.context with
    stack, pc := s.context.pc.advance (1 + op.operandCount) }⟩

/-- Code that begins with these slots holds them. -/
theorem CodeAddress.holds_append (p : ProgramRef) (before slots : List Instruction)
    (h : p.program.code = (before ++ slots).toArray) :
    (CodeAddress.mk p before.length).Holds slots := by
  induction slots generalizing before with
  | nil => trivial
  | cons slot slots ih =>
    constructor
    · simp [CodeAddress.slot?, h]
    · have hnext := ih (before ++ [slot]) (by simpa using h)
      rwa [List.length_append] at hnext

/-! ## The top of the stack -/

namespace Context

variable {c : Context} {base : Array Value} {v : Value} {values : List Value}

theorem pop_of_stack (h : c.stack = base.push v) : pop c = .ok v { c with stack := base } := by
  simp [pop, h]

theorem push_of_room (v : Value) (h : c.stack.size < c.limit) :
    push v c = .ok () { c with stack := c.stack.push v } := by
  simp [push, h]

theorem peek_of_stack (h : c.stack = base.push v ++ values.toArray) :
    peek values.length c = .ok v := by
  have hsize : c.stack.size = base.size + (values.length + 1) := by simp [h]
  have hlt : values.length < c.stack.size := by omega
  have hslot : c.stack[c.stack.size - (values.length + 1)]? = some v := by
    have hindex : c.stack.size - (values.length + 1) = base.size := by omega
    rw [hindex, h, Array.getElem?_append_left (by simp), Array.getElem?_push_size]
  simp only [peek, if_pos hlt, hslot]

theorem top_of_stack (h : c.stack = base ++ values.toArray) :
    top values.length c = .ok values := by
  simp [top, h]

theorem drop_of_stack (h : c.stack = base ++ values.toArray) :
    drop values.length c = .ok () { c with stack := base } := by
  simp [drop, h]

theorem fetchImmediate_of_slot {n : Int64} (h : c.pc.slot? = some (.immediate n)) :
    fetchImmediate c = .ok n { c with pc := c.pc.advance 1 } := by
  simp only [fetchImmediate, h]

theorem fetchCount_of_slot {n : Int64} {count : Nat} (h : c.pc.slot? = some (.immediate n))
    (hn : n.toInt = count) : fetchCount c = .ok count { c with pc := c.pc.advance 1 } := by
  have hneg : ¬ n.toInt < 0 := by omega
  simp only [fetchCount, fetchImmediate_of_slot h, if_neg hneg]
  rw [hn]
  rfl

end Context

namespace Execution

variable {w : World} {c : Context} {base : Array Value} {parts : List Value} {key : String}

theorem peekKey_of_stack (h : c.stack = base ++ parts.toArray) (hkey : keyOf parts = .ok key) :
    peekKey parts.length ⟨w, c⟩ = .ok key ⟨w, c⟩ := by
  have hview : view (Context.top parts.length) ⟨w, c⟩ = .ok parts ⟨w, c⟩ := by
    simp only [view, Context.top_of_stack h]
  refine (bind_of_ok hview).trans ?_
  rw [hkey]
  rfl

theorem popKey_of_stack (h : c.stack = base ++ parts.toArray) (hkey : keyOf parts = .ok key) :
    popKey parts.length ⟨w, c⟩ = .ok key ⟨w, { c with stack := base }⟩ :=
  (bind_of_ok (peekKey_of_stack h hkey)).trans
    (bind_of_ok (transition_of_ok (Context.drop_of_stack h)))

end Execution

/-! ## Calculations on operands -/

/-- What is left of a calculation takes the operands off the stack and, if there is room for them,
puts the results there.  If it fails, it has changed nothing but the stack. -/
def Computes (x : Execution Outcome) (operands : List Value) (store : Store)
    (answer : Except Fault (List Value × Store)) : Prop :=
  ∀ (w : World) (c : Context) (base : Array Value), w.store = store →
    c.stack = base ++ operands.toArray →
    match answer with
    | .ok (results, after) => base.size + results.length ≤ c.limit →
      x ⟨w, c⟩ = .ok .next
        ⟨{ w with store := after }, { c with stack := base ++ results.toArray }⟩
    | .error why => ∃ stack, x ⟨w, c⟩ = .error (.fault why) ⟨w, { c with stack }⟩

namespace Computes

variable {α : Type} {x : Execution α} {f : α → Execution Outcome} {operands results : List Value}
  {store after : Store} {answer : Except Fault (List Value × Store)}

/-- A part that succeeds and leaves fewer operands. -/
theorem bind {a : α} (rest : List Value)
    (hx : ∀ (w : World) (c : Context) (base : Array Value), w.store = store →
      c.stack = base ++ operands.toArray →
      x ⟨w, c⟩ = .ok a ⟨w, { c with stack := base ++ rest.toArray }⟩)
    (hf : Computes (f a) rest store answer) : Computes (x >>= f) operands store answer := by
  intro w c base hstore hstack
  rw [Execution.bind_of_ok (hx w c base hstore hstack)]
  exact hf w { c with stack := base ++ rest.toArray } base hstore rfl

/-- A part that fails. -/
theorem refuse {why : Fault}
    (hx : ∀ (w : World) (c : Context), w.store = store → x ⟨w, c⟩ = .error (.fault why) ⟨w, c⟩) :
    Computes (x >>= f) operands store (.error why) := by
  intro w c base hstore _
  exact ⟨c.stack, Execution.bind_of_error (hx w c hstore)⟩

/-- A part that leaves everything as it is. -/
theorem look {a : α}
    (hx : ∀ (w : World) (c : Context) (base : Array Value), w.store = store →
      c.stack = base ++ operands.toArray → x ⟨w, c⟩ = .ok a ⟨w, c⟩)
    (hf : Computes (f a) operands store answer) : Computes (x >>= f) operands store answer := by
  refine .bind operands (fun w c base hstore hstack => ?_) hf
  rw [hx w c base hstore hstack, ← hstack]

/-! ### The stack -/

theorem pop {f : Value → Execution Outcome} {v : Value} (rest : List Value)
    (hf : Computes (f v) rest store answer) :
    Computes (Execution.pop >>= f) (rest ++ [v]) store answer := by
  refine .bind rest (fun w c base _ hstack => ?_) hf
  exact Execution.transition_of_ok (Context.pop_of_stack (by simp [hstack]))

theorem peek {f : Value → Execution Outcome} {v : Value} (below above : List Value)
    (hf : Computes (f v) (below ++ v :: above) store answer) :
    Computes (Execution.view (Context.peek above.length) >>= f) (below ++ v :: above) store
      answer := by
  refine .look (fun w c base _ hstack => ?_) hf
  have hsplit : c.stack = (base ++ below.toArray).push v ++ above.toArray := by simp [hstack]
  simp only [Execution.view, Context.peek_of_stack hsplit]

/-- A value is put on the stack.  There is room for it if there is room for the results. -/
theorem push {f : Unit → Execution Outcome} {v : Value} (hlen : operands.length < results.length)
    (hf : Computes (f ()) (operands ++ [v]) store (.ok (results, after))) :
    Computes (Execution.push v >>= f) operands store (.ok (results, after)) := by
  intro w c base hstore hstack hroom
  have hsize : c.stack.size < c.limit := by
    simp only [hstack, Array.size_append, List.size_toArray]
    omega
  have hpush : Execution.push v ⟨w, c⟩ = .ok () ⟨w, { c with stack := c.stack.push v }⟩ :=
    Execution.transition_of_ok (Context.push_of_room v hsize)
  rw [Execution.bind_of_ok hpush]
  exact hf w { c with stack := c.stack.push v } base hstore (by simp [hstack]) hroom

/-- In the end the operands that are left are the results. -/
theorem done : Computes (pure .next) results store (.ok (results, store)) := by
  intro w c base hstore hstack _
  subst hstore
  rw [← hstack]
  rfl

theorem deliver (v : Value) :
    Computes (Execution.push v >>= fun _ => pure .next) [] store (.ok ([v], store)) :=
  .push (by simp) .done

/-- An array that a part takes off the stack. -/
theorem popArray {use : ArrayUse} {f : ArrayRef → Execution Outcome} {ref : ArrayRef}
    (rest : List Value) (hf : Computes (f ref) rest store answer) :
    Computes (Execution.popArray use >>= f) (rest ++ [.array ref]) store answer := by
  refine .bind rest (fun w c base _ hstack => ?_) hf
  have htop : c.stack = (base ++ rest.toArray).push (.array ref) := by simp [hstack]
  exact Execution.bind_of_ok (Execution.transition_of_ok (Context.pop_of_stack htop))

theorem popArray_error {use : ArrayUse} {f : ArrayRef → Execution Outcome} {v : Value}
    (rest : List Value) (hv : v.isArray = false) :
    Computes (Execution.popArray use >>= f) (rest ++ [v]) store (.error (.notArray use)) := by
  intro w c base _ hstack
  have htop : c.stack = (base ++ rest.toArray).push v := by simp [hstack]
  refine ⟨base ++ rest.toArray, Execution.bind_of_error ?_⟩
  refine (Execution.bind_of_ok (Execution.transition_of_ok (Context.pop_of_stack htop))).trans ?_
  cases v with
  | array ref => cases hv
  | _ => rfl

theorem peekKey {f : String → Execution Outcome} {key : String} {parts : List Value}
    (rest : List Value) (hkey : keyOf parts = .ok key)
    (hf : Computes (f key) (rest ++ parts) store answer) :
    Computes (Execution.peekKey parts.length >>= f) (rest ++ parts) store answer := by
  refine .look (fun w c base _ hstack => ?_) hf
  have hsplit : c.stack = (base ++ rest.toArray) ++ parts.toArray := by simp [hstack]
  exact Execution.peekKey_of_stack hsplit hkey

theorem popKey {f : String → Execution Outcome} {key : String} {parts : List Value}
    (rest : List Value) (hkey : keyOf parts = .ok key)
    (hf : Computes (f key) rest store answer) :
    Computes (Execution.popKey parts.length >>= f) (rest ++ parts) store answer := by
  refine .bind rest (fun w c base _ hstack => ?_) hf
  have hsplit : c.stack = (base ++ rest.toArray) ++ parts.toArray := by simp [hstack]
  exact Execution.popKey_of_stack hsplit hkey

theorem popIf {f : Option Value → Execution Outcome} (rest : List Value) (operand : Option Value)
    (hf : Computes (f operand) rest store answer) :
    Computes (Execution.popIf operand.isSome >>= f) (rest ++ operand.toList) store answer := by
  cases operand with
  | none =>
    rw [Option.toList_none, List.append_nil]
    exact .look (fun _ _ _ _ _ => rfl) hf
  | some v =>
    refine .bind rest (fun w c base _ hstack => ?_) hf
    have htop : c.stack = (base ++ rest.toArray).push v := by simp [hstack]
    have hpop : Execution.pop ⟨w, c⟩ = .ok v ⟨w, { c with stack := base ++ rest.toArray }⟩ :=
      Execution.transition_of_ok (Context.pop_of_stack htop)
    show EStateM.map some Execution.pop ⟨w, c⟩ = _
    rw [EStateM.map, hpop]

theorem push? {f : Unit → Execution Outcome} (operand : Option Value)
    (hlen : (operands ++ operand.toList).length ≤ results.length)
    (hf : Computes (f ()) (operands ++ operand.toList) store (.ok (results, after))) :
    Computes (Execution.push? operand >>= f) operands store (.ok (results, after)) := by
  cases operand with
  | none =>
    rw [Option.toList_none, List.append_nil] at hf
    exact .look (fun _ _ _ _ _ => rfl) hf
  | some v =>
    refine .push ?_ hf
    simp only [Option.toList_some, List.length_append, List.length_singleton] at hlen
    omega

/-! ### Values -/

theorem convert {r : Except Mismatch α} {a : α} (hr : r = .ok a)
    (hf : Computes (f a) operands store answer) :
    Computes (Execution.convert r >>= f) operands store answer := by
  subst hr
  exact .look (fun _ _ _ _ _ => rfl) hf

theorem convert_error {r : Except Mismatch α} {why : Mismatch} (hr : r = .error why) :
    Computes (Execution.convert r >>= f) operands store (.error (.mismatch why)) := by
  subst hr
  exact .refuse fun _ _ _ => rfl

theorem ofExcept {r : Except Fault α} {a : α} (hr : r = .ok a)
    (hf : Computes (f a) operands store answer) :
    Computes (Execution.ofExcept r >>= f) operands store answer := by
  subst hr
  exact .look (fun _ _ _ _ _ => rfl) hf

theorem ofExcept_error {r : Except Fault α} {why : Fault} (hr : r = .error why) :
    Computes (Execution.ofExcept r >>= f) operands store (.error why) := by
  subst hr
  exact .refuse fun _ _ _ => rfl

/-! ### The store -/

theorem world {f : World → Execution Outcome}
    (hf : ∀ w : World, w.store = store → Computes (f w) operands store answer) :
    Computes (Execution.world >>= f) operands store answer := by
  intro w c base hstore hstack
  exact hf w hstore w c base hstore hstack

theorem elementAt {f : Value → Execution Outcome} {ref : ArrayRef} {key : String} {v : Value}
    (hv : (store.entries ref).get? key = some v) (hf : Computes (f v) operands store answer) :
    Computes (Execution.elementAt ref key >>= f) operands store answer := by
  refine .look (fun w c base hstore _ => ?_) hf
  refine (Execution.bind_of_ok (rfl : Execution.world ⟨w, c⟩ = .ok w ⟨w, c⟩)).trans ?_
  rw [hstore, hv]
  rfl

theorem elementAt_error {f : Value → Execution Outcome} {ref : ArrayRef} {key : String}
    (hv : (store.entries ref).get? key = none) :
    Computes (Execution.elementAt ref key >>= f) operands store (.error (.missingKey key)) := by
  refine .refuse fun w c hstore => ?_
  refine (Execution.bind_of_ok (rfl : Execution.world ⟨w, c⟩ = .ok w ⟨w, c⟩)).trans ?_
  rw [hstore, hv]
  rfl

/-- A part that changes the store.  What comes after it must not fail. -/
theorem withStore {f : α → Execution Outcome} {g : Store → α × Store}
    (hf : Computes (f (g store).1) operands (g store).2 (.ok (results, after))) :
    Computes (Execution.withStore g >>= f) operands store (.ok (results, after)) := by
  intro w c base hstore hstack hroom
  subst hstore
  exact hf { w with store := (g w.store).2 } c base rfl hstack hroom

theorem modifyStore {f : Unit → Execution Outcome} {g : Store → Store}
    (hf : Computes (f ()) operands (g store) (.ok (results, after))) :
    Computes (Execution.modifyStore g >>= f) operands store (.ok (results, after)) := by
  intro w c base hstore hstack hroom
  subst hstore
  exact hf { w with store := g w.store } c base rfl hstack hroom

end Computes

/-! ## Instructions on operands -/

/-- An instruction that finds its operands on top of the stack puts the results in their place, if
there is room for them, and goes on behind its slots.  If it fails, it has changed no array. -/
def Evaluates (host : Host) (op : Opcode) (slots : List Instruction) (operands : List Value)
    (store : Store) (answer : Except Fault (List Value × Store)) : Prop :=
  ∀ (nested : Runner) (s : State) (base : Array Value),
    s.Poised (.op op :: slots) base operands → s.world.store = store →
    match answer with
    | .ok (results, after) => base.size + results.length ≤ s.context.limit →
      Execution.step host nested s =
        .ok .next ((s.past op (base ++ results.toArray)).withStore after)
    | .error why => ∃ t, Execution.step host nested s = .error (.fault why) t ∧
      t.world.store = store

namespace Evaluates

variable {host : Host} {op : Opcode} {slots : List Instruction} {operands : List Value}
  {store : Store} {answer answer' : Except Fault (List Value × Store)}

/-- An instruction first takes its slots and then calculates. -/
theorem of_computes {x : Execution Outcome} (hslots : slots.length = op.operandCount)
    (hfetch : ∀ (invoke : Execution.Caller) (w : World) (c : Context), c.pc.Holds slots →
      Execution.carryOut invoke op ⟨w, c⟩ = x ⟨w, { c with pc := c.pc.advance slots.length }⟩)
    (hx : Computes x operands store answer) : Evaluates host op slots operands store answer := by
  intro nested s base hs hstore
  have hstep : Execution.step host nested s = x ⟨Execution.recorded op s,
      { s.context with pc := s.context.pc.advance (1 + op.operandCount) }⟩ := by
    rw [Execution.step_of_opcode hs.code.1, hfetch _ _ _ hs.code.2, hslots]
    simp
  have hanswer := hx (Execution.recorded op s)
    { s.context with pc := s.context.pc.advance (1 + op.operandCount) } base hstore hs.stack
  rw [hstep]
  cases answer with
  | ok result => exact hanswer
  | error why =>
    obtain ⟨stack, heq⟩ := hanswer
    exact ⟨_, heq, hstore⟩

/-- An instruction whose only slot is a count. -/
theorem of_count {rest : Nat → Execution Outcome} {n : Int64} {count : Nat}
    (hop : op.operandCount = 1)
    (hrest : ∀ invoke, Execution.carryOut invoke op =
      Execution.transition Context.fetchCount >>= rest)
    (hn : n.toInt = count) (h : Computes (rest count) operands store answer) :
    Evaluates host op [.immediate n] operands store answer := by
  refine .of_computes hop.symm (fun invoke w c hc => ?_) h
  rw [hrest]
  exact Execution.bind_of_ok (Execution.transition_of_ok (Context.fetchCount_of_slot hc.1 hn))

/-- An instruction with a number and a count for its slots. -/
theorem of_immediate_count {rest : Int64 → Nat → Execution Outcome} {flag n : Int64} {count : Nat}
    (hop : op.operandCount = 2)
    (hrest : ∀ invoke, Execution.carryOut invoke op =
      Execution.transition Context.fetchImmediate >>= fun flag =>
        Execution.transition Context.fetchCount >>= rest flag)
    (hn : n.toInt = count) (h : Computes (rest flag count) operands store answer) :
    Evaluates host op [.immediate flag, .immediate n] operands store answer := by
  refine .of_computes hop.symm (fun invoke w c hc => ?_) h
  rw [hrest]
  refine (Execution.bind_of_ok (Execution.transition_of_ok
    (Context.fetchImmediate_of_slot hc.1))).trans ?_
  refine (Execution.bind_of_ok (Execution.transition_of_ok
    (Context.fetchCount_of_slot hc.2.1 hn))).trans ?_
  rfl

/-! ### Answers are determined -/

/-- A machine with nothing on its stack but the operands of its only instruction. -/
def stage (op : Opcode) (slots : List Instruction) (operands : List Value) (limit : Nat)
    (store : Store) : State where
  world := { (default : World) with store }
  context :=
    { stack := operands.toArray, limit, fp := 0, pc := ⟨⟨0, (.op op :: slots).toArray, []⟩, 0⟩,
      runTarget := none, focusTarget := none }

theorem stage_poised (op : Opcode) (slots : List Instruction) (store : Store) {limit : Nat}
    (h : operands.length ≤ limit) :
    (stage op slots operands limit store).Poised (.op op :: slots) #[] operands where
  code := CodeAddress.holds_append _ [] _ rfl
  stack := by simp [stage]
  fits := by simpa [stage] using h

/-- What a step shows of an answer. -/
def shown? : EStateM.Result Halt State Outcome → Option (Except Fault (List Value × Store))
  | .ok _ t => some (.ok (t.context.stack.toList, t.world.store))
  | .error (.fault why) _ => some (.error why)
  | .error .unfinished _ => none

/-- On a stack that is large enough, a step shows the answer. -/
theorem shown (h : Evaluates host op slots operands store answer) :
    ∃ enough, ∀ limit, enough ≤ limit →
      shown? (Execution.step host (fun _ _ => none) (stage op slots operands limit store)) =
        some answer := by
  cases answer with
  | ok result =>
    refine ⟨operands.length + result.1.length, fun limit hlimit => ?_⟩
    have hroom : (#[] : Array Value).size + result.1.length ≤ limit := by
      simp only [List.size_toArray, List.length_nil]
      omega
    rw [h _ _ #[] (stage_poised op slots store (by omega)) rfl hroom]
    simp [shown?, State.past, State.withStore]
  | error why =>
    refine ⟨operands.length, fun limit hlimit => ?_⟩
    obtain ⟨t, hfail, -⟩ := h (fun _ _ => none) _ #[] (stage_poised op slots store hlimit) rfl
    rw [hfail]
    rfl

/-- What an instruction makes of its operands is determined. -/
theorem unique (h : Evaluates host op slots operands store answer)
    (h' : Evaluates host op slots operands store answer') : answer = answer' := by
  obtain ⟨enough, henough⟩ := h.shown
  obtain ⟨enough', henough'⟩ := h'.shown
  have hshown := henough (max enough enough') (Nat.le_max_left _ _)
  rw [henough' _ (Nat.le_max_right _ _)] at hshown
  exact (Option.some_inj.1 hshown).symm

end Evaluates

end MacroMachine
