import MacroMachine.Proofs.IndexTuples

/-!
# Compound assignment to elements

To change an element by an operator takes three instructions: one puts the element on the stack,
above its array and index, the operator works on it, and one stores the result.  This module shows
that the three come to what the operator makes of the element and of the right operand, if there is
one.

*Line-up.*  The preparation leaves the array and the index where they are and moves the right
operand above the element.  So the operator finds the element as its left operand, and what it
leaves is the value that the last instruction expects above the array and the index, whatever number
of parts the index has.

*Failure.*  The element may be missing, and the operator may refuse its operands.  The store is the
same as before in both cases, since only the last instruction changes an element.
-/

namespace MacroMachine

variable {host : Host} {flag n : Int64} {ref : ArrayRef} {keys : List Value} {key : String}

/-! ## Preparing an update -/

/-- The element is put on top of the array and its index, below the right operand. -/
theorem evaluates_prepareUpdate (host : Host) (ref : ArrayRef) (operand : Option Value)
    (store : Store) (hne : keys ≠ []) (hn : n.toInt = keys.length) (hkey : keyOf keys = .ok key)
    (hflag : (flag != 0) = operand.isSome) :
    Evaluates host .prepareUpdate [.immediate flag, .immediate n]
      (.array ref :: keys ++ operand.toList) store
      ((elementOr key ((store.entries ref).get? key)).map fun old =>
        (.array ref :: keys ++ old :: operand.toList, store)) := by
  refine .of_immediate_count rfl (fun _ => rfl) hn ?_
  simp only [hflag]
  refine .popIf (.array ref :: keys) operand ?_
  have hdimensions : keys.length ≠ 0 := by simpa using hne
  rw [if_neg hdimensions]
  refine .peekKey [.array ref] hkey (.peek [] keys (.look (fun _ _ _ _ _ => rfl) ?_))
  cases hv : (store.entries ref).get? key with
  | some old =>
    have hresults : (.array ref :: keys) ++ [old] ++ operand.toList =
        .array ref :: keys ++ old :: operand.toList := by simp
    refine .elementAt hv (.push (by simp) (.push? operand (by simp) ?_))
    rw [List.nil_append, hresults]
    exact .done
  | none => exact .elementAt_error hv

/-! ## Instructions in a row -/

/-- Carries out a number of instructions, unless one of them ends the macro or suspends it. -/
def Execution.follow (host : Host) (nested : Runner) : Nat → Execution Outcome
  | 0 => return .next
  | count + 1 => do
    match ← step host nested with
    | .next => follow host nested count
    | outcome => return outcome

theorem CodeAddress.holds_append_iff {a : CodeAddress} {slots code : List Instruction} :
    a.Holds (slots ++ code) ↔ a.Holds slots ∧ (a.advance slots.length).Holds code := by
  induction slots generalizing a with
  | nil => simp [Holds]
  | cons slot slots ih => simp [Holds, ih, and_assoc, Nat.add_comm]

section Follow

variable {nested : Runner} {s t : State} {count : Nat} {op : Opcode} {slots code : List Instruction}
  {base : Array Value} {operands results : List Value} {store after : Store} {why : Fault}

/-- Some of the operands may be counted among what lies below. -/
theorem State.poised_append {below : List Value} :
    s.Poised code base (below ++ operands) ↔ s.Poised code (base ++ below.toArray) operands := by
  have hstack : base ++ (below ++ operands).toArray =
      base ++ below.toArray ++ operands.toArray := by simp
  constructor
  · intro h
    exact ⟨h.code, h.stack.trans hstack, h.fits⟩
  · intro h
    exact ⟨h.code, h.stack.trans hstack.symm, h.fits⟩

/-- Some instructions have gone by: the code goes on a number of slots further, and nothing else has
changed but the stack, the store and the record. -/
structure State.Passes (s t : State) (slots : Nat) : Prop where
  context : t.context =
    { s.context with stack := t.context.stack, pc := s.context.pc.advance slots }
  world : t.world = { s.world with store := t.world.store, dispatches := t.world.dispatches }

theorem State.Passes.limit {n : Nat} (h : s.Passes t n) : t.context.limit = s.context.limit := by
  rw [h.context]

theorem State.Passes.trans {u : State} {m n : Nat} (h : s.Passes t m) (h' : t.Passes u n) :
    s.Passes u (m + n) where
  context := by
    refine h'.context.trans ?_
    rw [h.context]
    simp
  world := by
    refine h'.world.trans ?_
    rw [h.world]

/-- An execution fails and has changed no array. -/
def Execution.FailsAt (x : Execution Outcome) (s : State) (why : Fault) : Prop :=
  ∃ t, x s = .error (.fault why) t ∧ t.world.store = s.world.store

namespace Evaluates

/-- The first of some instructions succeeds.  The next one is poised on its results. -/
theorem follow (nested : Runner) (count : Nat) (code : List Instruction)
    (h : Evaluates host op slots operands store (.ok (results, after)))
    (hslots : slots.length = op.operandCount)
    (hs : s.Poised (.op op :: slots ++ code) base operands) (hstore : s.world.store = store)
    (hroom : base.size + results.length ≤ s.context.limit) :
    ∃ t, Execution.follow host nested (count + 1) s = Execution.follow host nested count t ∧
      t.Poised code base results ∧ t.world.store = after ∧ s.Passes t (1 + slots.length) := by
  obtain ⟨hfirst, hrest⟩ := CodeAddress.holds_append_iff.1 hs.code
  have hstep := h nested s base ⟨hfirst, hs.stack, hs.fits⟩ hstore hroom
  rw [List.length_cons, Nat.add_comm, hslots] at hrest
  rw [hslots]
  refine ⟨_, Execution.bind_of_ok hstep, ⟨hrest, rfl, ?_⟩, rfl, rfl, rfl⟩
  simpa [State.past, State.withStore] using hroom

theorem follow_error (nested : Runner) (count : Nat) (code : List Instruction)
    (h : Evaluates host op slots operands store (.error why))
    (hs : s.Poised (.op op :: slots ++ code) base operands) (hstore : s.world.store = store) :
    (Execution.follow host nested (count + 1)).FailsAt s why := by
  have hfirst := (CodeAddress.holds_append_iff.1 hs.code).1
  obtain ⟨t, hstep, hsame⟩ := h nested s base ⟨hfirst, hs.stack, hs.fits⟩ hstore
  exact ⟨t, Execution.bind_of_error hstep, hsame.trans hstore.symm⟩

end Evaluates

end Follow

/-! ## Compound assignment -/

theorem Store.AltersElement.of_grows {store made after : Store} {new : Option Value}
    (hgrows : store.Grows made) (h : made.AltersElement after ref key new)
    (href : ref.index < store.containers.size) : store.AltersElement after ref key new where
  here other := by rw [h.here, hgrows.entries ref href]
  elsewhere other hother hne :=
    (h.elsewhere other (Nat.lt_of_lt_of_le hother hgrows.size) hne).trans
      (hgrows.entries other hother)

/-- What an operator has made is stored as an element, and the stack is what it was below the
array. -/
structure Updated (s t : State) (slots : Nat) (base : Array Value) (ref : ArrayRef) (key : String)
    (made : Store) (result : Value) : Prop where
  passes : s.Passes t slots
  stack : t.context.stack = base
  element : ∃ stored, made.Copied t.world.store result stored ∧
    s.world.store.AltersElement t.world.store ref key (some stored)

/-- An operator that succeeds above an array and an index is followed by an update. -/
theorem updated_of_answer (nested : Runner) {s : State} {base : Array Value} {op : Opcode}
    {operands : List Value} {result : Value} {made : Store}
    (hs : s.Poised [.op op, .op .setElement, .immediate n] base (.array ref :: keys ++ operands))
    (hop : op.operandCount = 0) (hoperands : operands ≠ [])
    (hanswer : Evaluates host op [] operands s.world.store (.ok ([result], made)))
    (hgrows : s.world.store.Grows made) (href : ref.index < s.world.store.containers.size)
    (hkeys : keys ≠ []) (hn : n.toInt = keys.length) (hkey : keyOf keys = .ok key) :
    ∃ t, Execution.follow host nested 2 s = .ok .next t ∧
      Updated s t 3 base ref key made result := by
  have hroom : base.size + (keys.length + 1) + 1 ≤ s.context.limit := by
    have hfits := hs.fits
    have hpos := List.length_pos_iff.2 hoperands
    simp only [hs.stack, Array.size_append, List.size_toArray, List.length_append,
      List.length_cons] at hfits
    omega
  obtain ⟨s₁, hrun₁, hs₁, rfl, hpasses₁⟩ := hanswer.follow nested 1
    [.op .setElement, .immediate n] hop.symm (State.poised_append.1 hs) rfl (by simpa using hroom)
  have hroom₁ : base.size + ([] : List Value).length ≤ s₁.context.limit := by
    rw [hpasses₁.limit, List.length_nil]
    omega
  obtain ⟨t, hrun₂, ht, hstore, hpasses₂⟩ :=
    (evaluates_setElement host ref result s₁.world.store hkeys hn hkey).follow nested 0 []
      rfl (State.poised_append.2 hs₁) rfl hroom₁
  have href₁ := Nat.lt_of_lt_of_le href hgrows.size
  refine ⟨t, hrun₁.trans hrun₂, hpasses₁.trans hpasses₂, by simpa using ht.stack, ?_⟩
  rw [hstore]
  exact ⟨_, s₁.world.store.copied_insert result key href₁,
    .of_grows hgrows (s₁.world.store.altersElement_insert result key href₁) href⟩

/-- The code of a compound assignment to an element. -/
def compoundCode (flag n : Int64) (op : Opcode) : List Instruction :=
  [.op .prepareUpdate, .immediate flag, .immediate n, .op op, .op .setElement, .immediate n]

/-- A compound assignment replaces an element by what the operator makes of it and of the right
operand, if the operator has one, and leaves the stack below the array.  It fails if there is no
element, and it fails as the operator does; in both cases no array has changed. -/
theorem compound_assignment_updates_element (host : Host) (nested : Runner) {s : State}
    {base : Array Value} {ref : ArrayRef} {keys : List Value} {operand : Option Value} {op : Opcode}
    {flag n : Int64}
    (hs : s.Poised (compoundCode flag n op) base (.array ref :: keys ++ operand.toList))
    (hroom : s.context.stack.size < s.context.limit)
    (href : ref.index < s.world.store.containers.size) (hkeys : keys ≠ [])
    (hindex : ∀ k ∈ keys, k.isIndex = true) (hn : n.toInt = keys.length)
    (hflag : (flag != 0) = operand.isSome)
    (hop : op.arity? = some (operand.toList.length + 1)) :
    ∃ key, keyOf keys = .ok key ∧
      match (s.world.store.entries ref).get? key with
      | none => Reads host n ref keys s.world.store (.error (.missingKey key)) ∧
        (Execution.follow host nested 3).FailsAt s (.missingKey key)
      | some old => Reads host n ref keys s.world.store (.ok old) ∧
        ∃ answer : Except Fault (Value × Store),
          Evaluates host op [] (old :: operand.toList) s.world.store
            (answer.map fun result => ([result.1], result.2)) ∧
          match answer with
          | .error why => (Execution.follow host nested 3).FailsAt s why
          | .ok (result, made) => ∃ t, Execution.follow host nested 3 s = .ok .next t ∧
            Updated s t 6 base ref key made result := by
  have hkey := keyOf_of_isIndex hindex
  have hreads := reads host ref s.world.store hkeys hn hkey
  have hprepare := evaluates_prepareUpdate host ref operand s.world.store hkeys hn hkey hflag
  refine ⟨_, hkey, ?_⟩
  cases hv : (s.world.store.entries ref).get? _ with
  | none =>
    rw [hv] at hprepare hreads
    exact ⟨hreads, hprepare.follow_error nested 2 [.op op, .op .setElement, .immediate n] hs rfl⟩
  | some old =>
    rw [hv] at hprepare hreads
    -- the element takes the free slot
    have hlen : base.size + (.array ref :: keys ++ old :: operand.toList).length ≤
        s.context.limit := by
      simp only [hs.stack, Array.size_append, List.size_toArray, List.cons_append,
        List.length_cons, List.length_append] at hroom ⊢
      omega
    obtain ⟨s₁, hrun₁, hs₁, hstore₁, hpasses₁⟩ :=
      hprepare.follow nested 2 [.op op, .op .setElement, .immediate n] rfl hs rfl hlen
    have hop' : op.arity? = some (old :: operand.toList).length := hop
    obtain ⟨answer, hanswer, hgrows⟩ := Evaluates.exists_answer host hop' s.world.store
    refine ⟨hreads, answer, hanswer, ?_⟩
    cases answer with
    | error why =>
      obtain ⟨t, hfail, hstore⟩ := hanswer.follow_error nested 1
        [.op .setElement, .immediate n] (State.poised_append.1 hs₁) hstore₁
      exact ⟨t, hrun₁.trans hfail, hstore.trans hstore₁⟩
    | ok result =>
      rw [← hstore₁] at hanswer href
      obtain ⟨t, hrun, hupdated⟩ := updated_of_answer nested hs₁
        (Opcode.operandCount_of_arity? hop) (List.cons_ne_nil _ _) hanswer
        (hstore₁ ▸ hgrows _ _ rfl) href hkeys hn hkey
      refine ⟨t, hrun₁.trans hrun, hpasses₁.trans hupdated.passes, hupdated.stack, ?_⟩
      rw [← hstore₁]
      exact hupdated.element

/-- A macro about to subtract 7 from an element, with room for one more value. -/
def Sample.lessening : State :=
  Evaluates.stage .prepareUpdate
    [.immediate 1, .immediate 2, .op .subtract, .op .setElement, .immediate 2]
    [.array ⟨0⟩, .int 1, .text "x", .int 7] 5 Sample.grid

/-- The element is 5 before and -2 after it. -/
theorem compound_assignment_updates_element_by_difference :
    Sample.lessening.Poised (compoundCode 1 2 .subtract) #[]
      (.array ⟨0⟩ :: [.int 1, .text "x"] ++ (some (Value.int 7)).toList) ∧
    ∃ t, Execution.follow Sample.host (fun _ _ => none) 3 Sample.lessening = .ok .next t ∧
      t.context.stack = #[] ∧
      (t.world.store.entries ⟨0⟩).get? "1\x1cx" = some (.int (-2)) := by
  have hs : Sample.lessening.Poised (compoundCode 1 2 .subtract) #[]
      (.array ⟨0⟩ :: [.int 1, .text "x"] ++ (some (Value.int 7)).toList) :=
    Evaluates.stage_poised _ _ _ (by decide)
  have hop : Evaluates Sample.host .subtract [] [.int 5, .int 7] Sample.grid
      (.ok ([.int (-2)], Sample.grid)) :=
    .of_operator rfl (fun _ => rfl) (Execution.Operator.computes_arrayOrInt_of_not_array _ _ rfl
      (.pop [.int 5] (.convert rfl (.pop [] (.convert rfl (.ofExcept rfl (.deliver _)))))))
  obtain ⟨key, hkey, hupdate⟩ := compound_assignment_updates_element Sample.host
    (fun _ _ => none) hs (by decide) (by decide) nofun (by decide) rfl rfl rfl
  have hparts : keyOf [.int 1, .text "x"] = .ok "1\x1cx" := by decide +kernel
  obtain rfl : "1\x1cx" = key := Except.ok.inj (hparts.symm.trans hkey)
  have hold : (Sample.lessening.world.store.entries ⟨0⟩).get? "1\x1cx" = some (.int 5) := by
    decide +kernel
  rw [hold] at hupdate
  obtain ⟨-, answer, hanswer, hupdate⟩ := hupdate
  cases answer with
  | error why => cases hanswer.unique hop
  | ok result =>
    obtain ⟨result, made⟩ := result
    cases hanswer.unique hop
    obtain ⟨t, hrun, hupdated⟩ := hupdate
    obtain ⟨stored, hcopied, halters⟩ := hupdated.element
    cases hcopied
    exact ⟨hs, t, hrun, hupdated.stack, by rw [halters.here, if_pos rfl]⟩

end MacroMachine
