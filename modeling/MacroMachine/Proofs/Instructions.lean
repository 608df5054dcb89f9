import MacroMachine.Proofs.Operations
import MacroMachine.Proofs.Runs

/-!
# Instructions keep every discipline

One lemma for each handler, and from them the rule for a whole step.  An instruction starts between
two others with its operands in the current frame, and it ends between two others again.  Only a
return of the outermost frame ends otherwise: then the macro is over, and what is left of the
discipline is that nothing forbidden lies about.

*Routines.*  What a routine of the host does is up to the host, so the rules for calls assume that
routines keep the discipline too (`Host.Keeps`), and that the macros which they run do
(`Discipline.Answers`).
-/

namespace MacroMachine

/-- The routines keep what they hand on as `Routine.Keeps` says if their arguments are such. -/
def Host.Keeps (host : Host) (I : Discipline) : Prop :=
  ∀ routine arguments, (∀ v ∈ arguments, I.Value v) →
    (host.routine routine arguments).Keeps I.Value I.program (I.control [] false)

namespace Discipline

variable {I : Discipline} {a b : CodeAddress} {k : Nat} {known : Option SymbolId} {marker : Bool}
  {rest : List OperandRole}

/-- Nothing lies about that may not. -/
structure Clean (I : Discipline) (s : State) : Prop where
  world : I.World s.world
  values : ∀ v ∈ s.context.stack, I.Value v

/-- How an instruction may end: the macro goes on between two instructions, or it is over. -/
structure Goes (I : Discipline) (outcome : Outcome) (s : State) : Prop where
  clean : I.Clean s
  ready : outcome ≠ .done → I.Ready false s

/-- Macros that routines run keep the discipline. -/
def Answers (I : Discipline) (nested : Runner) : Prop :=
  ∀ w c status w', I.Clean ⟨w, c⟩ → I.control [] false c.pc → nested w c = some (status, w') →
    I.World w' ∧ status.Holds I.Value (I.control [] false)

/-- Calls of routines keep the discipline, whatever instruction they are a part of. -/
def Calls (I : Discipline) (invoke : Execution.Caller) : Prop :=
  ∀ symbol routine arguments, (∀ v ∈ arguments, I.Value v) → ∀ marker,
    I.Meets (I.Ready marker) (invoke symbol routine arguments)
      fun result s => I.Value result.1 ∧ I.Ready marker s

theorem Sound.clean {s : State} (h : I.Sound s) : I.Clean s :=
  ⟨h.world, h.values⟩

theorem Ready.goes {s : State} (h : I.Ready false s) (outcome : Outcome) : I.Goes outcome s :=
  ⟨h.sound.clean, fun _ => h⟩

/-- An instruction that is finished, apart from saying so. -/
theorem finish_meets (hc : I.control [] false a) (outcome : Outcome) :
    I.Meets (I.At a k known) (pure outcome) I.Goes :=
  .pure fun _ hs => (hs.ready hc).goes outcome

/-- An instruction that is finished once its result is on the stack. -/
theorem pushed_meets {v : MacroMachine.Value} (hc : I.control [] false a) (hv : I.Value v) :
    I.Meets (I.At a k known) (do Execution.push v; return .next) I.Goes :=
  .bind (push_meets hv) fun _ => finish_meets hc _

theorem value_int (n : Int32) : I.Value (.int n) :=
  value_of_kind (by simp [MacroMachine.Value.kind])

theorem value_text (s : String) : I.Value (.text s) :=
  value_of_kind (by simp [MacroMachine.Value.kind])

theorem value_array (ref : ArrayRef) : I.Value (.array ref) :=
  value_of_kind (by simp [MacroMachine.Value.kind])

theorem value_unset : I.Value .unset :=
  value_of_kind (by simp [MacroMachine.Value.kind])

theorem value_iterator (it : Iterator) : I.Value (.iterator it) :=
  value_of_kind (by simp [MacroMachine.Value.kind])

/-! ## Operators -/

section Operators

variable (hc : I.control [] false a)
include hc

theorem binaryInt_meets {f : Int32 → Int32 → Except MacroMachine.Fault Int32}
    (hf : ∀ x y e, f x y = .error e → e.Ordinary) :
    I.Meets (I.At a 2 none) (Execution.binaryInt f) I.Goes := by
  refine .bind pop_meets fun _ => .given fun _ => ?_
  refine .bind convert_meets fun right => .given fun _ => ?_
  refine .bind pop_meets fun _ => .given fun _ => ?_
  refine .bind convert_meets fun left => .given fun _ => ?_
  refine .bind (ofExcept_meets fun e he => fault_of_ordinary (hf left right e he)) fun n => ?_
  exact pushed_meets hc (value_int n)

/-- An operator that has no faults of its own. -/
theorem totalInt_meets (f : Int32 → Int32 → Int32) :
    I.Meets (I.At a 2 none) (Execution.binaryInt fun x y => .ok (f x y)) I.Goes :=
  binaryInt_meets hc fun _ _ _ h => by cases h

theorem unaryInt_meets (f : Int32 → Int32) :
    I.Meets (I.At a 1 none) (Execution.unaryInt f) I.Goes := by
  refine .bind pop_meets fun _ => .given fun _ => .bind convert_meets fun n => .given fun _ => ?_
  exact pushed_meets hc (value_int (f n))

theorem arrayOrInt_meets {setOperator : Store → ArrayRef → ArrayRef → ArrayRef × Store}
    (hset : SetOperator setOperator) (f : Int32 → Int32 → Int32) :
    I.Meets (I.At a 2 none) (Execution.arrayOrInt setOperator f) I.Goes := by
  refine .bind (peek_meets 0) fun top => .given fun _ => ?_
  split
  · refine .bind (peek_meets 1) fun second => .given fun _ => ?_
    split
    · refine .bind pop_meets fun _ => .given fun _ => ?_
      refine .bind convert_meets fun right => .given fun _ => ?_
      refine .bind pop_meets fun _ => .given fun _ => ?_
      refine .bind convert_meets fun left => .given fun _ => ?_
      have hmade : I.Meets (I.At a 0 none)
          (Execution.withStore fun store => setOperator store left right)
          fun _ s => True ∧ I.At a 0 none s :=
        withStore_meets fun w hw => ⟨trivial, hset I w left right hw⟩
      refine .bind hmade fun result => .given fun _ => ?_
      exact pushed_meets hc (value_array result)
    · exact raise_meets (fault_of_ordinary ⟨not_false, not_false⟩)
  · exact totalInt_meets hc f

theorem equality_meets (wanted : Bool) :
    I.Meets (I.At a 2 none) (Execution.equality wanted) I.Goes := by
  refine .bind pop_meets fun right => .given fun _ => .bind pop_meets fun left => .given fun _ => ?_
  refine .bind convert_meets fun same => .given fun _ => ?_
  exact pushed_meets hc (value_int _)

theorem concatenate_meets : I.Meets (I.At a 2 none) Execution.concatenate I.Goes := by
  refine .bind pop_meets fun _ => .given fun _ => ?_
  refine .bind convert_meets fun right => .given fun _ => ?_
  refine .bind pop_meets fun _ => .given fun _ => ?_
  refine .bind convert_meets fun left => .given fun _ => ?_
  exact pushed_meets hc (value_text _)

theorem duplicate_meets : I.Meets (I.At a 1 none) Execution.duplicate I.Goes := by
  refine .bind (peek_meets 0) fun v => .given fun hv => ?_
  exact pushed_meets hc hv

end Operators

theorem quotient_fault {x y : Int32} {e : MacroMachine.Fault} (h : quotient x y = .error e) :
    e.Ordinary := by
  unfold quotient at h
  split at h
  · cases h; exact ⟨not_false, not_false⟩
  · cases h

theorem remainder_fault {x y : Int32} {e : MacroMachine.Fault} (h : remainder x y = .error e) :
    e.Ordinary := by
  unfold remainder at h
  split at h
  · cases h; exact ⟨not_false, not_false⟩
  · cases h

theorem power_fault {x y : Int32} {e : MacroMachine.Fault} (h : power x y = .error e) :
    e.Ordinary := by
  have he : e = .powerOutOfRange := by
    unfold power powerOfNat at h
    grind
  subst he
  exact ⟨not_false, not_false⟩

/-! ## Variables and arguments -/

theorem argumentValue_meets (id : SymbolId) (index : Int32) :
    I.Meets (I.At a k known) (Execution.argumentValue id index)
      fun v s => I.Value v ∧ I.At a k known s := by
  refine .bind argumentCount_meets fun count => ?_
  split
  · exact .pure fun s hs => ⟨value_int _, hs⟩
  · split
    · exact .bind (symbolName_meets id) fun _ =>
        raise_meets (fault_of_ordinary ⟨not_false, not_false⟩)
    · exact argument_meets _

/-- Reading a variable may run a routine, and the routine may enter a program: then the value goes
on the stack of the new frame. -/
theorem symbolValue_meets {invoke : Execution.Caller} (hi : I.Calls invoke)
    (hc : I.control [] false a) (id : SymbolId) :
    I.Meets (I.At a k none) (Execution.symbolValue invoke id)
      fun v s => I.Value v ∧ I.Ready false s := by
  refine .bind (symbol_meets id) fun symbol => .given fun hsymbol => .before ?_ fun _ hs => hs.2
  split
  · refine .bind (ofExcept_meets fun e he => fault_of_ordinary (frameOffset_fault he)) fun _ => ?_
    exact (localValue_meets _).after fun _ _ hs => ⟨hs.1, hs.2.ready hc⟩
  · exact .pure fun s hs => ⟨hsymbol.1, hs.ready hc⟩
  · exact .pure fun s hs => ⟨hsymbol.1, hs.ready hc⟩
  · refine .bind convert_meets fun index => .given fun _ => ?_
    exact (argumentValue_meets id index).after fun _ _ hs => ⟨hs.1, hs.2.ready hc⟩
  · split
    · next routine _ =>
      have hcall := hi id routine [] (fun _ hv => by cases hv) false
      refine .bind (hcall.before fun s hs => hs.ready hc) fun result => ?_
      exact .pure fun s hs => hs
    · exact raise_meets (fault_of_ordinary ⟨not_false, not_false⟩)
  · exact raise_meets (fault_of_ordinary ⟨not_false, not_false⟩)
  · exact raise_meets (fault_of_ordinary ⟨not_false, not_false⟩)

theorem pushSymbol_meets {invoke : Execution.Caller} (hi : I.Calls invoke)
    (hc : I.control [.symbol] false a) :
    I.Meets (I.At a k none) (Execution.pushSymbol invoke) I.Goes := by
  refine .bind (fetchSymbol_meets hc) fun id => .given fun _ => ?_
  refine .bind (symbolValue_meets hi (I.operand hc) id) fun v => .given fun hv => ?_
  refine .ready fun b hb => ?_
  split
  · exact .bind (symbolName_meets id) fun _ =>
      raise_meets (fault_of_ordinary ⟨not_false, not_false⟩)
  · exact pushed_meets hb hv

theorem assign_meets (hc : I.control [.symbol] false a) :
    I.Meets (I.At a 1 none) Execution.assign I.Goes := by
  refine .bind (fetchSymbol_meets hc) fun id => .given fun _ => ?_
  refine .bind (place?_meets id) fun place => ?_
  cases place with
  | none =>
    refine .bind (symbol_meets id) fun symbol => .given fun _ => .before ?_ fun _ hs => hs.2
    exact raise_meets (fault_of_ordinary ⟨not_false, not_false⟩)
  | some place =>
    refine .bind pop_meets fun v => .given fun hv => ?_
    refine .bind (copyForAssignment_meets hv) fun copied => .given fun hcopied => ?_
    exact .bind (write_meets place hcopied) fun _ => finish_meets (I.operand hc) _

theorem pushArgument_meets (hc : I.control [] false a) :
    I.Meets (I.At a 1 none) Execution.pushArgument I.Goes := by
  refine .bind pop_meets fun _ => .given fun _ => .bind convert_meets fun n => .given fun _ => ?_
  refine .bind argumentCount_meets fun count => ?_
  split
  · exact raise_meets (fault_of_ordinary ⟨not_false, not_false⟩)
  · refine .bind (argument_meets _) fun v => .given fun hv => ?_
    exact pushed_meets hc hv

theorem pushArgumentCount_meets (hc : I.control [] false a) :
    I.Meets (I.At a k none) Execution.pushArgumentCount I.Goes := by
  refine .bind argumentCount_meets fun count => ?_
  exact pushed_meets hc (value_int _)

theorem argumentEntries_all {arguments : List MacroMachine.Value}
    (h : ∀ v ∈ arguments, I.Value v) : (Execution.argumentEntries arguments).All I.Value := by
  apply Entries.all_ofList
  intro row hrow
  obtain ⟨⟨v, i⟩, hmem, rfl⟩ := List.mem_map.1 hrow
  exact h v (List.fst_mem_of_mem_zipIdx hmem)

theorem makeArgumentArray_meets :
    I.Meets (I.At a k known) Execution.makeArgumentArray
      fun v s => I.Value v ∧ I.At a k known s := by
  refine .bind arguments_meets fun arguments => .given fun harguments => ?_
  refine .bind (alloc_meets (argumentEntries_all harguments)) fun ref => ?_
  refine .bind (setArgumentArray_meets ref) fun _ => ?_
  exact .pure fun s hs => ⟨value_array ref, hs⟩

theorem pushArgumentArray_meets (hc : I.control [] false a) :
    I.Meets (I.At a k none) Execution.pushArgumentArray I.Goes := by
  refine .bind argumentArray_meets fun cached => .given fun hcached => ?_
  dsimp only
  split
  · exact pushed_meets hc hcached
  · exact .bind makeArgumentArray_meets fun v => .given fun hv => pushed_meets hc hv

/-! ## Elements -/

theorem peekKey_meets (n : Nat) :
    I.Meets (I.At a k known) (Execution.peekKey n) fun _ => I.At a k known := by
  refine .bind (top_meets n) fun parts => ?_
  exact convert_meets.after fun _ _ hs => hs.2

theorem popKey_meets {n : Nat} (hk : k = k' + n) :
    I.Meets (I.At a k known) (Execution.popKey n) fun _ => I.At a k' known := by
  refine .bind (peekKey_meets n) fun key => .bind (drop_meets hk) fun _ => ?_
  exact .pure fun s hs => hs

theorem container_meets (use : ArrayUse) (v : MacroMachine.Value) :
    I.Meets (I.At a k known) (Execution.container use v) fun _ => I.At a k known := by
  unfold Execution.container
  split
  · exact .pure fun s hs => hs
  · exact raise_meets (fault_of_ordinary ⟨not_false, not_false⟩)

theorem popArray_meets (use : ArrayUse) :
    I.Meets (I.At a (k + 1) known) (Execution.popArray use) fun _ => I.At a k known := by
  exact .bind pop_meets fun v => .given fun _ => container_meets use v

theorem elementAt_meets (ref : ArrayRef) (key : String) :
    I.Meets (I.At a k known) (Execution.elementAt ref key)
      fun v s => I.Value v ∧ I.At a k known s := by
  refine .bind world_meets fun w => .given fun hw => ?_
  split
  · next v hv => exact .pure fun s hs => ⟨(entries_all hw ref).get? hv, hs⟩
  · exact raise_meets (fault_of_ordinary ⟨not_false, not_false⟩)

theorem popSize_meets :
    I.Meets (I.At a (k + 1) known) Execution.popSize fun v s => I.Value v ∧ I.At a k known s := by
  refine .bind (popArray_meets _) fun ref => .bind world_meets fun w => .given fun _ => ?_
  exact .pure fun s hs => ⟨value_int _, hs⟩

theorem popElement_meets (n : Nat) :
    I.Meets (I.At a (n + 1) known) (Execution.popElement n)
      fun v s => I.Value v ∧ I.At a 0 known s := by
  refine .bind (popKey_meets (Nat.add_comm n 1)) fun key => ?_
  exact .bind (popArray_meets _) fun ref => elementAt_meets ref key

theorem element_meets (hc : I.control [.count] false a) :
    I.Meets (I.At a (a.number.toNat + 1) none) Execution.element I.Goes := by
  refine .bind (fetchCount_meets hc) fun n => .given fun hn => ?_
  subst hn
  dsimp only
  split
  · exact .bind popSize_meets fun v => .given fun hv => pushed_meets (I.operand hc) hv
  · exact .bind (popElement_meets _) fun v => .given fun hv => pushed_meets (I.operand hc) hv

theorem setElement_meets (hc : I.control [.count] false a) :
    I.Meets (I.At a (a.number.toNat + 2) none) Execution.setElement I.Goes := by
  refine .bind (fetchCount_meets hc) fun n => .given fun hn => ?_
  subst hn
  refine .bind pop_meets fun v => .given fun hv => ?_
  split
  · exact raise_meets (fault_of_ordinary ⟨not_false, not_false⟩)
  · refine .bind (popKey_meets (Nat.add_comm _ 1)) fun key => ?_
    refine .bind (popArray_meets _) fun ref => ?_
    refine .bind (copyForAssignment_meets hv) fun copied => .given fun hcopied => ?_
    have hinsert : I.Meets (I.At (a.advance 1) 0 none)
        (Execution.modifyStore (·.insert ref key copied)) fun _ => I.At (a.advance 1) 0 none :=
      modifyStore_meets fun store hstore => modify_all hstore fun e he => he.insert key hcopied
    exact .bind hinsert fun _ => finish_meets (I.operand hc) _

theorem deleteElement_meets (hc : I.control [.count] false a) :
    I.Meets (I.At a (a.number.toNat + 1) none) Execution.deleteElement I.Goes := by
  refine .bind (fetchCount_meets hc) fun n => .given fun hn => ?_
  subst hn
  split
  · refine .bind (popArray_meets _) fun ref => ?_
    refine .bind (modifyStore_meets fun store hstore => ?_) fun _ => finish_meets (I.operand hc) _
    exact modify_all hstore fun _ _ => Entries.all_empty
  · refine .bind (popKey_meets (Nat.add_comm _ 1)) fun key => .bind (popArray_meets _) fun ref => ?_
    refine .bind (modifyStore_meets fun store hstore => ?_) fun _ => finish_meets (I.operand hc) _
    exact modify_all hstore fun e he => he.erase key

theorem popIf_meets (wanted : Bool) :
    I.Meets (I.At a (k + if wanted then 1 else 0) known) (Execution.popIf wanted)
      fun operand s => (∀ v, operand = some v → I.Value v) ∧ I.At a k known s := by
  cases wanted with
  | false => exact .pure fun s hs => ⟨fun _ hv => (by cases hv), hs⟩
  | true =>
    refine .bind pop_meets fun v => .given fun hv => ?_
    exact .pure fun s hs => ⟨fun _ hu => Option.some.inj hu ▸ hv, hs⟩

/-- A second operand is put back. -/
theorem push?_meets {operand : Option MacroMachine.Value} (h : ∀ v, operand = some v → I.Value v) :
    I.Meets (I.At a k known) (Execution.push? operand) fun _ => I.At a k known := by
  cases operand with
  | none => exact .pure fun s hs => hs
  | some v => exact (push_meets (h v rfl)).after fun _ _ hs => hs.fewer (Nat.le_succ k)

/-- The flag of an update tells whether there is a second operand. -/
theorem number_of_flag {n : Int64} (h : a.slot? = some (.immediate n)) :
    (if a.number = 0 then 0 else 1) = if n != 0 then 1 else 0 := by
  have hnumber : a.number = n.toInt := by simp only [CodeAddress.number, h]
  have hzero : n.toInt = 0 ↔ n = 0 := by rw [← Int64.toInt_inj, Int64.toInt_zero]
  rw [hnumber]
  by_cases hn : n = 0
  · simp [hn]
  · simp [hn, hzero]

theorem prepareUpdate_meets (hc : I.control [.flag, .count] false a) :
    I.Meets (I.At a (Opcode.prepareUpdate.demand a) none) Execution.prepareUpdate I.Goes := by
  have hc' := I.operand hc
  refine .bind (fetchImmediate_meets hc (by simp)) fun n => .given fun hslot => ?_
  refine .bind (fetchCount_meets hc') fun dimensions => .given fun hd => ?_
  subst hd
  rw [Opcode.demand, number_of_flag hslot]
  refine .bind (popIf_meets _) fun operand => .given fun hoperand => ?_
  split
  · exact raise_meets (fault_of_ordinary ⟨not_false, not_false⟩)
  · refine .bind (peekKey_meets _) fun key => .bind (peek_meets _) fun v => .given fun _ => ?_
    refine .bind (container_meets _ v) fun ref => ?_
    refine .bind (elementAt_meets ref key) fun u => .given fun hu => ?_
    refine .bind (push_meets hu) fun _ => .bind (push?_meets hoperand) fun _ => ?_
    exact finish_meets (I.operand hc') _

theorem membership_meets (hc : I.control [] false a) :
    I.Meets (I.At a 2 none) Execution.membership I.Goes := by
  refine .bind (popArray_meets _) fun ref => .bind pop_meets fun left => .given fun _ => ?_
  refine .bind world_meets fun w => .given fun _ => ?_
  refine .bind convert_meets fun found => .given fun _ => ?_
  exact pushed_meets hc (value_int _)

theorem makeArray_meets (place : Place) :
    I.Meets (I.At a k (placeSymbol place)) (Execution.makeArray place)
      fun v s => I.Value v ∧ I.At a k (placeSymbol place) s := by
  refine .bind (alloc_meets Entries.all_empty) fun ref => ?_
  refine .bind (write_meets place (value_array ref)) fun _ => ?_
  exact .pure fun s hs => ⟨value_array ref, hs⟩

theorem arrayOf_meets (id : SymbolId) (place : Place) (makeEmpty : Bool) :
    I.Meets (I.At a k (placeSymbol place)) (Execution.arrayOf id place makeEmpty)
      fun v s => I.Value v ∧ I.At a k (placeSymbol place) s := by
  refine .bind (read_meets place) fun v => .given fun hv => ?_
  split
  · split
    · exact makeArray_meets place
    · exact .bind (symbolName_meets id) fun _ =>
        raise_meets (fault_of_ordinary ⟨not_false, not_false⟩)
  · exact .pure fun s hs => ⟨hv, hs⟩

theorem pushArray_meets (hc : I.control [.symbol, .flag] false a) :
    I.Meets (I.At a k none) Execution.pushArray I.Goes := by
  have hc' := I.operand hc
  refine .bind (fetchSymbol_meets hc) fun id => .given fun _ => ?_
  refine .bind (fetchImmediate_meets hc' (by simp)) fun n => .given fun _ => ?_
  refine .bind (place?_meets id) fun place => ?_
  cases place with
  | none =>
    exact .bind (symbolName_meets id) fun _ =>
      raise_meets (fault_of_ordinary ⟨not_false, not_false⟩)
  | some place =>
    refine .bind (arrayOf_meets id place _) fun v => .given fun hv => ?_
    exact pushed_meets (I.operand hc') hv

/-! ## Loops -/

theorem iteratorPlace_meets (id : SymbolId) :
    I.Meets (I.At a k known) (Execution.iteratorPlace id)
      fun place s => (∃ offset, place = .frame offset) ∧ I.At a k known s := by
  refine .bind (symbol_meets id) fun symbol => .given fun _ => .before ?_ fun _ hs => hs.2
  split
  · refine .bind (ofExcept_meets fun e he => fault_of_ordinary (frameOffset_fault he))
      fun offset => ?_
    exact .pure fun s hs => ⟨⟨offset, rfl⟩, hs⟩
  · exact raise_meets (fault_of_ordinary ⟨not_false, not_false⟩)

theorem beginIteration_meets (hc : I.control [.symbol] false a) :
    I.Meets (I.At a 1 none) Execution.beginIteration I.Goes := by
  refine .bind (fetchSymbol_meets hc) fun id => .given fun _ => ?_
  refine .bind (iteratorPlace_meets id) fun place => .given fun hplace => ?_
  obtain ⟨offset, rfl⟩ := hplace
  refine .bind (popArray_meets _) fun ref => .bind world_meets fun w => .given fun _ => ?_
  exact .bind (setLocal_meets offset (value_iterator _)) fun _ => finish_meets (I.operand hc) _

theorem advance_meets (offset : Nat) (it : Iterator) :
    I.Meets (I.At a k known) (Execution.advance (.frame offset) it) fun _ => I.At a k known := by
  refine .bind world_meets fun w => .given fun _ => ?_
  split
  · refine .bind (setLocal_meets offset (value_iterator _)) fun _ => ?_
    exact .pure fun s hs => hs
  · exact raise_meets (fault_of_ordinary ⟨not_false, not_false⟩)

/-- A loop goes on with the next instruction or at its end. -/
theorem bindKey_meets {item : Place} {exit : Nat} (hc : I.control [] false a)
    (hexit : I.control [] false (a.jump exit)) (key : Option String) :
    I.Meets (I.At a k (placeSymbol item)) (Execution.bindKey item exit key)
      fun _ => I.Ready false := by
  cases key with
  | some key => exact (write_meets item (value_text key)).after fun _ _ hs => hs.ready hc
  | none => exact (jump_meets exit).after fun _ _ hs => hs.ready hexit

theorem iterate_meets (hc : I.control [.symbol, .symbol, .branch] false a) :
    I.Meets (I.At a k none) Execution.iterate I.Goes := by
  have hc' := I.operand hc
  have hc'' := I.operand hc'
  refine .bind (fetchSymbol_meets hc) fun itemId => .given fun _ => ?_
  refine .bind (fetchSymbol_meets hc') fun iteratorId => .given fun _ => ?_
  refine .bind (fetchBranch_meets hc'') fun exit => .given fun hexit => ?_
  refine .bind (place?_meets itemId) fun item => ?_
  cases item with
  | none =>
    exact .bind (symbolName_meets _) fun _ =>
      raise_meets (fault_of_ordinary ⟨not_false, not_false⟩)
  | some item =>
    refine .bind (iteratorPlace_meets iteratorId) fun place => .given fun hplace => ?_
    obtain ⟨offset, rfl⟩ := hplace
    refine .bind (read_meets _) fun v => .given fun _ => ?_
    split
    · refine .bind (write_meets item value_unset) fun _ => ?_
      refine .bind (advance_meets offset _) fun key => ?_
      refine .bind (bindKey_meets (I.operand hc'') hexit key) fun _ => ?_
      exact .pure fun s hs => hs.goes _
    · exact .bind (symbolName_meets _) fun _ =>
        raise_meets (fault_of_ordinary ⟨not_false, not_false⟩)

/-! ## Branches -/

theorem branch_meets (hc : I.control [.branch] false a) :
    I.Meets (I.At a k none) Execution.branch I.Goes := by
  refine .bind (fetchBranch_meets hc) fun target => .given fun htarget => ?_
  exact .bind (jump_meets target) fun _ => finish_meets htarget _

theorem branchIf_meets (hc : I.control [.branch] false a) (wanted : Bool) :
    I.Meets (I.At a 1 none) (Execution.branchIf wanted) I.Goes := by
  refine .bind (fetchBranch_meets hc) fun target => .given fun htarget => ?_
  refine .bind pop_meets fun _ => .given fun _ => .bind convert_meets fun n => .given fun _ => ?_
  split
  · exact .bind (jump_meets target) fun _ => finish_meets htarget _
  · exact finish_meets (I.operand hc) _

theorem branchNever_meets (hc : I.control [.branch] false a) :
    I.Meets (I.At a k none) Execution.branchNever I.Goes := by
  exact .bind skip_meets fun _ => finish_meets (I.operand hc) _

/-! ## Routines -/

theorem Ready.loosen {s : State} (h : I.Ready false s) : I.Ready marker s := by
  cases marker with
  | false => exact h
  | true => exact ⟨h.sound, I.weaken h.control⟩

theorem Ready.withWorld {w w' : MacroMachine.World} {c : Context} (h : I.Ready marker ⟨w, c⟩)
    (hw : I.World w') : I.Ready marker ⟨w', c⟩ :=
  ⟨⟨hw, h.sound.values, h.sound.frames⟩, h.control⟩

/-- A context that is started holds its arguments and begins its program. -/
theorem start_clean {w : MacroMachine.World} {p : ProgramRef} {arguments : List MacroMachine.Value}
    {limit : Nat} {target : Option DocumentHandle} {c : Context} (hw : I.World w)
    (harguments : ∀ v ∈ arguments, I.Value v)
    (h : Context.start p arguments limit target = .ok c) : I.Clean ⟨w, c⟩ ∧ c.pc = ⟨p, 0⟩ := by
  obtain ⟨-, rfl⟩ := Context.start_eq_ok h
  refine ⟨⟨hw, value_of_mem_withFrame ?_ fun b hb => by cases hb⟩, rfl⟩
  intro v hv
  exact harguments v (List.mem_toArray.1 hv)

/-- What a routine asks for is carried out in the state of its caller, one request after another. -/
theorem perform_meets {host : Host} {nested : Runner} (hn : I.Answers nested) (r : Routine)
    (hr : r.Keeps I.Value I.program (I.control [] false)) (preempting : Bool) :
    I.Meets (I.Ready marker) (Execution.perform host nested preempting r)
      fun x s => (∀ v, x.1 = .ok v → I.Value v) ∧ I.Ready marker s := by
  induction r generalizing preempting with
  | finish result => exact .pure fun s hs => ⟨hr, hs⟩
  | inspect next ih =>
    intro s hs
    refine ih _ (hr _ ?_) preempting s hs
    exact hs.sound.world
  | update change next ih =>
    rintro ⟨w, c⟩ hs
    exact ih hr.2 preempting _ (hs.withWorld (hr.1 w hs.sound.world))
  | setFocus target next ih =>
    rintro ⟨w, c⟩ hs
    exact ih hr preempting _ ⟨⟨hs.sound.world, hs.sound.values, hs.sound.frames⟩, hs.control⟩
  | requestPreemption next ih => exact ih hr true
  | enter p next ih =>
    rintro ⟨w, c⟩ hs
    have hroom : I.framed → c.fp + 0 ≤ c.stack.size := fun hf => I.covers hf hs.sound.frames
    have henter := hs.enter hr.1 hroom fun _ => by decide
    simp only [Execution.perform]
    cases heq : Context.enter 0 p c with
    | ok _ c' =>
      rw [heq] at henter
      exact ih none (hr.2 none) preempting _ henter.loosen
    | error e c' =>
      rw [heq] at henter
      obtain ⟨-, rfl⟩ := henter
      exact ih (some e) (hr.2 (some e)) preempting _ hs
  | execute p arguments next ih =>
    rintro ⟨w, c⟩ hs
    obtain ⟨hp, harguments, hnext⟩ := hr
    simp only [Execution.perform]
    cases hstart : Context.start p arguments host.limits.stackSize c.focusTarget with
    | error e => exact ih (.failed e) (hnext (.failed e) trivial) preempting _ hs
    | ok inner =>
      obtain ⟨hclean, hpc⟩ := start_clean hs.sound.world harguments hstart
      dsimp only
      cases hanswer : nested w inner with
      | none => exact ⟨hs.sound.world, fun f hf => by cases hf⟩
      | some answer =>
        obtain ⟨status, w'⟩ := answer
        obtain ⟨hw', hstatus⟩ := hn w inner status w' hclean (hpc ▸ I.enter hp) hanswer
        exact ih status (hnext status hstatus) preempting _ (hs.withWorld hw')

theorem invoke_meets {host : Host} {nested : Runner} (hh : host.Keeps I) (hn : I.Answers nested) :
    I.Calls (Execution.invoke host nested) := by
  intro symbol routine arguments harguments marker
  have hrecord : I.Meets (I.Ready marker)
      (Execution.modifyWorld fun w =>
        { w with calls := w.calls.push { routine, arguments, store := w.store } })
      fun _ => I.Ready marker := by
    rintro ⟨w, c⟩ hs
    exact hs.withWorld ⟨hs.sound.world.symbols, hs.sound.world.functions, hs.sound.world.containers⟩
  refine .bind hrecord fun _ => ?_
  refine .bind (perform_meets hn _ (hh routine arguments harguments) false) fun result => ?_
  refine .given fun hresult => ?_
  obtain ⟨result | why, preempting⟩ := result
  · refine .ready fun b hb => .bind (symbolName_meets symbol) fun _ => ?_
    exact raise_meets (fault_of_ordinary ⟨not_false, not_false⟩)
  · exact .pure fun s hs => ⟨hresult _ rfl, hs⟩

/-! ## Calls -/

theorem deliver_meets (id : SymbolId) {v : MacroMachine.Value} (hv : I.Value v) :
    I.Meets (I.Ready true) (Execution.deliver id v) fun _ => I.Ready false := by
  refine .ready fun b hb => ?_
  refine .bind context_meets fun c => .given fun hpc => ?_
  split
  · next hmarker =>
    split
    · exact .bind (symbolName_meets id) fun _ =>
        raise_meets (fault_of_ordinary ⟨not_false, not_false⟩)
    · refine .bind (push_meets hv) fun _ => skip_meets.after fun _ s hs => hs.ready ?_
      simp only [Context.nextIs, hpc, beq_iff_eq] at hmarker
      exact I.marked hb hmarker
  · next hmarker =>
    refine .pure fun s hs => hs.ready (I.unmarked hb ?_)
    simpa only [Context.nextIs, hpc, beq_iff_eq] using hmarker

theorem call_meets {invoke : Execution.Caller} (hi : I.Calls invoke)
    (hc : I.control [.symbol, .count] true a) :
    I.Meets (fun s => (I.counted → s.world.Counts a) ∧ I.At a (Opcode.call.demand a) none s)
      (Execution.call invoke) I.Goes := by
  have hc' := I.operand hc
  -- what is known of the world stays known until the symbol is looked up
  let known : MacroMachine.World → Prop := fun w => I.counted → w.Counts a
  have hworld : ∀ {α : Type} {t : Transition α} s x s', Execution.transition t s = .ok x s' →
      s'.world = s.world := fun _ _ _ h => world_of_transition h
  refine .bind ((fetchSymbol_meets hc).keepingWorld hworld known) fun id => ?_
  refine .given_also fun hslot => ?_
  refine .bind ((fetchCount_meets hc').keepingWorld hworld known) fun count => ?_
  refine .given_also fun hcount => ?_
  subst hcount
  refine .bind ((symbol_meets id).keepingWorld (fun s x t h => by rw [symbol_eq_self h]) known)
    fun symbol => .given_also fun hsymbol => ?_
  have hfew : ∀ p, symbol.kind = .function → symbol.value = .program p → ∀ s,
      known s.world ∧ s.world.symbols.get? id = some symbol ∧
        I.At ((a.advance 1).advance 1) (Opcode.call.demand a) none s →
      (I.counted → Opcode.call.demand a < 2147483648) ∧
        I.At ((a.advance 1).advance 1) (Opcode.call.demand a) none s :=
    fun p hkind hvalue s hs =>
      ⟨fun hcounted => hs.1 hcounted id symbol p hslot hs.2.1 hkind hvalue, hs.2.2⟩
  split
  · next routine _ _ =>
    refine .before ?_ fun _ hs => hs.2.2
    refine .bind (popMany_meets (Nat.zero_add _).symm) fun arguments => .given fun harguments => ?_
    have hcall := hi id routine arguments harguments true
    refine .bind (hcall.before fun s hs => hs.ready (I.operand hc')) fun result => ?_
    refine .given fun hresult => .bind (deliver_meets id hresult) fun _ => ?_
    exact .pure fun s hs => hs.goes _
  · next p hkind hvalue =>
    refine .before (.given fun hfew => ?_) (hfew p hkind hvalue)
    refine .bind (enter_meets (hsymbol.2 hkind p hvalue) (I.operand hc') hfew) fun _ => ?_
    exact .pure fun s hs => hs.goes _
  · refine .before ?_ fun _ hs => hs.2.2
    exact raise_meets (fault_of_ordinary ⟨not_false, not_false⟩)

/-! ## Returns -/

/-- A state in which the current frame may be left. -/
def Leaving (I : Discipline) (a : CodeAddress) (k : Nat) (s : State) : Prop :=
  I.leaves s.context.fp ∧ I.At a k none s

theorem popFrame_meets : I.Meets (I.Leaving a k) (Execution.transition Context.popFrame)
    fun returnTo s => I.Clean s ∧ (returnTo ≠ none → I.Ready true s) := by
  rintro ⟨w, c⟩ ⟨hleaves, hs⟩
  have hpop : ∀ v ∈ c.stack, I.Value v := hs.sound.values
  simp only [Execution.transition]
  cases heq : Context.popFrame c with
  | error e c' =>
    refine ⟨hs.sound.world, fun f hf => ?_⟩
    cases hf
    refine ⟨fun _ => (Context.popFrame_fault heq).not_isFetch, fun hframed => ?_⟩
    -- an intact frame can be left
    obtain ⟨returnTo, caller, n, cached, haddress, hframe, hcount, -, hn, hfp⟩ :=
      intact_of_at hs hframed
    rw [Context.popFrame_of_slots haddress hframe hcount hn hfp] at heq
    cases heq
  | ok returnTo c' =>
    obtain ⟨caller, n, haddress, hframe, hcount, hn, hfp, rfl⟩ := Context.popFrame_eq_ok heq
    have hvalues : ∀ v ∈ c.stack.extract 0 (c.fp - (4 + n.toInt.toNat)), I.Value v :=
      fun v hv => hpop v (mem_of_mem_extract hv)
    refine ⟨⟨hs.sound.world, hvalues⟩, fun hsome => ?_⟩
    cases returnTo with
    | none => exact absurd rfl hsome
    | some b =>
      have hb : I.control [] true b := hpop _ (Array.mem_of_getElem? haddress) b rfl
      refine ⟨⟨hs.sound.world, hvalues, ?_⟩, hb⟩
      exact I.leave hs.sound.frames hleaves haddress hframe hcount hn hfp

theorem handOver_meets {value : Option MacroMachine.Value} (hv : ∀ v, value = some v → I.Value v) :
    I.Meets (I.Ready true) (Execution.handOver value) fun _ => I.Ready false := by
  refine .ready fun b hb => ?_
  refine .bind context_meets fun c => .given fun hpc => ?_
  split
  · next hmarker =>
    simp only [Context.nextIs, hpc, beq_iff_eq] at hmarker
    cases value with
    | none =>
      refine .bind world_meets fun w => .given fun _ => ?_
      refine .bind context_meets fun c' => .given fun _ => ?_
      exact raise_meets (fault_of_ordinary ⟨not_false, not_false⟩)
    | some v =>
      refine .bind (push_meets (hv v rfl)) fun _ => skip_meets.after fun _ s hs => ?_
      exact hs.ready (I.marked hb hmarker)
  · next hmarker =>
    refine .pure fun s hs => hs.ready (I.unmarked hb ?_)
    simpa only [Context.nextIs, hpc, beq_iff_eq] using hmarker

/-- The value of a macro that is over goes on the empty stack. -/
theorem push_clean {v : MacroMachine.Value} (hv : I.Value v) :
    I.Meets I.Clean (Execution.push v) fun _ => I.Clean := by
  rintro ⟨w, c⟩ hs
  have hvalues : ∀ u ∈ c.stack, I.Value u := hs.values
  simp only [Execution.push, Execution.transition]
  by_cases hfull : c.limit ≤ c.stack.size
  · simp only [Context.push, if_pos hfull]
    exact ⟨hs.world, fun f hf => by cases hf; exact fault_of_ordinary ⟨not_false, not_false⟩⟩
  · simp only [Context.push, if_neg hfull]
    refine ⟨hs.world, fun u hu => ?_⟩
    rcases Array.mem_push.1 hu with hu | rfl
    · exact hvalues u hu
    · exact hv

theorem leave_meets {value : Option MacroMachine.Value} (hv : ∀ v, value = some v → I.Value v) :
    I.Meets (I.Leaving a k) (Execution.leave value) I.Goes := by
  refine .bind popFrame_meets fun returnTo => ?_
  cases returnTo with
  | none =>
    have hvalue : I.Value (value.getD .unset) := by
      cases value with
      | none => exact value_unset
      | some v => exact hv v rfl
    refine .bind ((push_clean hvalue).before fun s hs => hs.1) fun _ => ?_
    exact .pure fun s hs => ⟨hs, fun hne => absurd rfl hne⟩
  | some b =>
    refine .bind ((handOver_meets hv).before fun s hs => hs.2 (by simp)) fun _ => ?_
    exact .pure fun s hs => hs.goes _

theorem returnNothing_meets : I.Meets (I.Leaving a k) Execution.returnNothing I.Goes :=
  leave_meets fun _ h => by cases h

/-- Taking a value off the stack leaves the frame pointer where it is. -/
theorem pop_leaving : I.Meets (I.Leaving a (k + 1)) Execution.pop
    fun v s => I.Value v ∧ I.Leaving a k s := by
  rintro ⟨w, c⟩ ⟨hleaves, hs⟩
  have hpop := pop_meets ⟨w, c⟩ hs
  simp only [Execution.pop, Execution.transition] at hpop ⊢
  cases hback : c.stack.back? with
  | none => simpa only [Context.pop, hback] using hpop
  | some v =>
    simp only [Context.pop, hback] at hpop ⊢
    exact ⟨hpop.1, hleaves, hpop.2⟩

theorem returnValue_meets : I.Meets (I.Leaving a (k + 1)) Execution.returnValue I.Goes := by
  refine .bind pop_leaving fun v => .given fun hv => leave_meets fun u hu => ?_
  cases hu
  exact hv

/-! ## Steps -/

/-- A state in which an opcode has been fetched and its operands begin at `a`. -/
def Fetched (I : Discipline) (op : Opcode) (a : CodeAddress) (s : State) : Prop :=
  (I.control op.roles (op == .call) a ∧ (I.checked → op ≠ .fetchResult)) ∧
    (op.IsReturn → I.leaves s.context.fp) ∧ (op = .call → I.counted → s.world.Counts a) ∧
    I.At a (op.demand a) none s

/-- Every instruction keeps the discipline. -/
theorem carryOut_meets {invoke : Execution.Caller} (hi : I.Calls invoke) (op : Opcode) :
    I.Meets (I.Fetched op a) (Execution.carryOut invoke op) I.Goes := by
  refine .given fun ⟨hc, hmarker⟩ => ?_
  have plain : ∀ {x : Execution Outcome}, I.Meets (I.At a (op.demand a) none) x I.Goes →
      I.Meets (fun s => (op.IsReturn → I.leaves s.context.fp) ∧
        (op = .call → I.counted → s.world.Counts a) ∧ I.At a (op.demand a) none s)
        x I.Goes := fun h => h.before fun _ hs => hs.2.2
  cases op with
  | returnNothing => exact returnNothing_meets.before fun s hs => ⟨hs.1 (.inl rfl), hs.2.2⟩
  | returnValue => exact returnValue_meets.before fun s hs => ⟨hs.1 (.inr rfl), hs.2.2⟩
  | pushSymbol => exact plain (pushSymbol_meets hi hc)
  | duplicate => exact plain (duplicate_meets hc)
  | assign => exact plain (assign_meets hc)
  | add => exact plain (arrayOrInt_meets hc setOperator_union _)
  | subtract => exact plain (arrayOrInt_meets hc setOperator_difference _)
  | bitAnd => exact plain (arrayOrInt_meets hc setOperator_intersection _)
  | bitOr => exact plain (arrayOrInt_meets hc setOperator_union _)
  | divide => exact plain (binaryInt_meets hc fun _ _ _ => quotient_fault)
  | remainder => exact plain (binaryInt_meets hc fun _ _ _ => remainder_fault)
  | power => exact plain (binaryInt_meets hc fun _ _ _ => power_fault)
  | multiply | greater | less | greaterEqual | lessEqual | and | or =>
    exact plain (totalInt_meets hc _)
  | negate | increment | decrement | not => exact plain (unaryInt_meets hc _)
  | equal | notEqual => exact plain (equality_meets hc _)
  | concat => exact plain (concatenate_meets hc)
  | call => exact (call_meets hi hc).before fun s hs => ⟨hs.2.1 rfl, hs.2.2⟩
  | fetchResult =>
    exact plain (raise_meets ⟨fun hchecked => absurd rfl (hmarker hchecked), fun _ => not_false⟩)
  | branch => exact plain (branch_meets hc)
  | branchTrue | branchFalse => exact plain (branchIf_meets hc _)
  | branchNever => exact plain (branchNever_meets hc)
  | element => exact plain (element_meets hc)
  | setElement => exact plain (setElement_meets hc)
  | deleteElement => exact plain (deleteElement_meets hc)
  | prepareUpdate => exact plain (prepareUpdate_meets hc)
  | contains => exact plain (membership_meets hc)
  | pushArray => exact plain (pushArray_meets hc)
  | beginIteration => exact plain (beginIteration_meets hc)
  | iterate => exact plain (iterate_meets hc)
  | pushArgument => exact plain (pushArgument_meets hc)
  | pushArgumentCount => exact plain (pushArgumentCount_meets hc)
  | pushArgumentArray => exact plain (pushArgumentArray_meets hc)

theorem fetchOpcode_meets : I.Meets I.Enabled (Execution.transition Context.fetchOpcode)
    fun op s => ∃ a, I.Fetched op a s := by
  rintro ⟨w, c⟩ ⟨hready, horderly, hfew, hleaves⟩
  have hsize : I.framed → c.fp ≤ c.stack.size := fun hf =>
    I.covers hf hready.sound.frames
  simp only [Execution.transition, Context.fetchOpcode]
  cases hslot : c.pc.slot? with
  | none =>
    -- the end of the code is a return that takes no slot
    refine ⟨c.pc, ⟨hready.control, fun _ => by simp⟩, fun _ => hleaves (.inl hslot),
      fun hcall => Opcode.noConfusion hcall, ?_⟩
    exact ⟨hready.sound, rfl, hsize, fun _ hid => by cases hid⟩
  | some slot =>
    have hbad : (∀ op, slot ≠ .op op) → ∀ position,
        I.Fault (.malformed (.operandForOpcode slot position)) := by
      intro hno position
      refine ⟨fun hchecked => ?_, fun _ => not_false⟩
      obtain ⟨op, -, heq⟩ := (I.legible hchecked hready.control).opcode hslot
      exact absurd heq (hno op)
    cases slot with
    | op op =>
      have hdemand : c.demand = op.demand (c.pc.advance 1) := by simp only [Context.demand, hslot]
      have hnext : ∀ op', op = op' → c.nextIs op' = true := by
        rintro op' rfl
        simp only [Context.nextIs, hslot, beq_self_eq_true]
      refine ⟨c.pc.advance 1, ⟨I.opcode hready.control hslot, fun hchecked => ?_⟩,
        fun hop => hleaves (.inr ?_), fun hcall hcounted => hfew hcounted (hnext _ hcall), ?_⟩
      · obtain ⟨op', hop', heq⟩ := (I.legible hchecked hready.control).opcode hslot
        cases heq
        exact hop'
      · exact hop.imp (hnext _) (hnext _)
      · refine ⟨⟨hready.sound.world, hready.sound.values, hready.sound.frames⟩, rfl, ?_,
          fun _ hid => by cases hid⟩
        intro hf
        rw [← hdemand]
        exact horderly hf
    | immediate n => exact ⟨hready.sound.world, fun f hf => by cases hf; exact hbad (by simp) _⟩
    | symbol id => exact ⟨hready.sound.world, fun f hf => by cases hf; exact hbad (by simp) _⟩

theorem record_meets (op : Opcode) (position : Nat) :
    I.Meets (fun s => ∃ a, I.Fetched op a s) (Execution.record op position)
      fun _ s => ∃ a, I.Fetched op a s := by
  rintro ⟨w, c⟩ ⟨a, hpure, hleaves, hfew, hat⟩
  refine ⟨a, hpure, hleaves, hfew, hat.withWorld ?_ fun id symbol h hk => ⟨symbol, h, hk⟩⟩
  exact ⟨hat.sound.world.symbols, hat.sound.world.functions, hat.sound.world.containers⟩

/-- A step keeps the discipline. -/
theorem step_meets {host : Host} {nested : Runner} (hh : host.Keeps I) (hn : I.Answers nested) :
    I.Meets I.Enabled (Execution.step host nested) I.Goes := by
  have hcontext : I.Meets I.Enabled Execution.context fun _ => I.Enabled := fun s hs => hs
  refine .bind hcontext fun c => .bind fetchOpcode_meets fun op => ?_
  refine .bind (record_meets op c.pc.index) fun _ => .choice fun a => ?_
  exact carryOut_meets (invoke_meets hh hn) op

/-- A run keeps the discipline if its instructions are enabled and the pauses keep it. -/
theorem Ready.runs {host : Host} {allowed : Context → Prop} {meanwhile : State → State → Prop}
    {s t : State} (hs : I.Ready false s) (hh : host.Keeps I)
    (hn : ∀ fuel, I.Answers (host.resume fuel))
    (hallowed : ∀ u, I.Ready false u → allowed u.context → I.Enabled u)
    (hpause : ∀ u v, I.Ready false u → meanwhile u v → I.Ready false v)
    (hrun : host.Runs allowed meanwhile s t) : I.Ready false t := by
  induction hrun with
  | start => exact hs
  | step _ hnow hstep hgoes ih =>
    obtain ⟨fuel, hstep⟩ := hstep
    have hmeets := step_meets hh (hn fuel) _ (hallowed _ ih hnow)
    rw [hstep] at hmeets
    exact hmeets.ready hgoes
  | pause _ hmeanwhile ih => exact hpause _ _ ih hmeanwhile

/-- Slices keep a discipline under which every instruction is enabled, and so do the macros that
routines run within them. -/
theorem answers_runSlice {host : Host} (hh : host.Keeps I)
    (henabled : ∀ s, I.Clean s → I.control [] false s.context.pc → I.Enabled s)
    (fuel executed : Nat) : I.Answers (host.runSlice fuel executed) := by
  induction fuel generalizing executed with
  | zero => intro w c status w' _ _ h; cases h
  | succ fuel ih =>
    intro w c status w' hclean hcontrol h
    have hmeets := step_meets hh (ih 0) ⟨w, c⟩ (henabled _ hclean hcontrol)
    rw [Host.runSlice] at h
    split at h
    · next s hstep =>
      rw [hstep] at hmeets
      have hready := hmeets.ready (by decide)
      split at h
      · cases h
        exact ⟨hmeets.clean.world, hmeets.clean.values, hready.control⟩
      · exact ih (executed + 1) _ _ _ _ hmeets.clean hready.control h
    · next s hstep =>
      rw [hstep] at hmeets
      cases h
      exact ⟨hmeets.clean.world, hmeets.clean.values, (hmeets.ready (by decide)).control⟩
    · next s hstep =>
      rw [hstep] at hmeets
      split at h
      · next v c' hpop =>
        cases h
        refine ⟨hmeets.clean.world, hmeets.clean.values v ?_⟩
        unfold Context.pop at hpop
        split at hpop
        · next hback =>
          cases hpop
          exact Array.mem_of_back? hback
        · cases hpop
      · cases h
        exact ⟨hmeets.clean.world, trivial⟩
    · next e s hstep =>
      rw [hstep] at hmeets
      cases h
      exact ⟨hmeets.1, trivial⟩
    · cases h

end Discipline

/-! ## Disciplines of the stack alone -/

/-- Where every value and every program may be about, routines may do as they like. -/
theorem Routine.keeps_of_free {value : Value → Prop} {program : ProgramRef → Prop}
    {place : CodeAddress → Prop} (hvalue : ∀ v, value v) (hprogram : ∀ p, program p)
    (r : Routine) : r.Keeps value program place := by
  have hworld : ∀ w : World, w.Holds value program := fun w =>
    ⟨fun _ _ => hvalue _, fun _ _ _ p _ => hprogram p, fun _ _ _ _ => hvalue _⟩
  induction r with
  | finish result => exact fun v _ => hvalue v
  | inspect next ih => exact fun view _ => ih view
  | update change next ih => exact ⟨fun w _ => hworld _, ih⟩
  | setFocus target next ih => exact ih
  | requestPreemption next ih => exact ih
  | enter p next ih => exact ⟨hprogram p, ih⟩
  | execute p arguments next ih =>
    exact ⟨hprogram p, fun v _ => hvalue v, fun status _ => ih status⟩

namespace Discipline

/-- Every program may be entered, and control may be anywhere. -/
structure Free (I : Discipline) : Prop where
  program : ∀ p, I.program p
  control : ∀ roles marker a, I.control roles marker a

namespace Free

variable {I : Discipline}

theorem value (h : I.Free) (v : MacroMachine.Value) : I.Value v :=
  fun a _ => h.control [] true a

theorem world (h : I.Free) (w : MacroMachine.World) : I.World w :=
  ⟨fun _ _ => h.value _, fun _ _ _ p _ => h.program p, fun _ _ _ _ => h.value _⟩

theorem keeps (h : I.Free) (host : Host) : host.Keeps I :=
  fun _ _ _ => Routine.keeps_of_free h.value h.program _

theorem answers (h : I.Free) (nested : Runner) : I.Answers nested := by
  intro w c status w' _ _ _
  refine ⟨h.world w', ?_⟩
  cases status with
  | done v => exact h.value v
  | preempted c' reason => exact ⟨fun v _ => h.value v, h.control [] false c'.pc⟩
  | failed e => trivial

theorem ready (h : I.Free) {s : State}
    (hframes : I.frames s.context.stack s.context.limit s.context.fp) : I.Ready false s :=
  ⟨⟨h.world _, fun v _ => h.value v, hframes⟩, h.control [] false _⟩

end Free

end Discipline

end MacroMachine
