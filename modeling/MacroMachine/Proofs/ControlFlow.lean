import MacroMachine.Proofs.Instructions

/-!
# Control flow in well-formed code

The machine does not verify the code that it runs.  Instructions may even take saved return
addresses off the stack, keep them in variables and arrays, and put them back where the bookkeeping
of a frame belongs.  If all code is well-formed, control nevertheless stays on instructions: the
only addresses that are ever about are those that calls have saved, and each of them is the end of a
call.

*Well-formed code* is a row of opcodes, each followed by operands of the right kinds, with counts
that are not negative, branches that lead to instructions, and markers only after calls.  A scan
from left to right decides it.
-/

namespace MacroMachine

/-! ## Well-formed programs -/

namespace Program

/-- A slot is an opcode that is no marker, or it lies at the end of the code. -/
def lands (p : Program) (target : Int) : Bool :=
  0 ≤ target && (target == p.size ||
    match p.code[target.toNat]? with
    | some (.op op) => op != .fetchResult
    | _ => false)

/-- A slot at an index can be read in a role. -/
def admits (p : Program) (index : Nat) : OperandRole → Instruction → Bool
  | .symbol, .symbol _ => true
  | .count, .immediate n => 0 ≤ n.toInt
  | .flag, .immediate _ => true
  | .branch, .immediate n => p.lands ((index : Int) + n.toInt)
  | _, _ => false

/-- The slots from an index on are operands of these roles, then whole instructions to the end.  The
first instruction may be a marker if the flag is set. -/
def fits (p : Program) : List OperandRole → Bool → Nat → List Instruction → Bool
  | [], _, _, [] => true
  | [], marker, index, .op op :: slots =>
    (op != .fetchResult || marker) && p.fits op.roles (op == .call) (index + 1) slots
  | role :: roles, marker, index, slot :: slots =>
    p.admits index role slot && p.fits roles marker (index + 1) slots
  | _, _, _, _ => false

/-- The code is a row of instructions with their operands, branches lead to instructions, and
markers come only after calls. -/
def WellFormed (p : Program) : Prop :=
  p.fits [] false 0 p.code.toList = true

instance (p : Program) : Decidable p.WellFormed :=
  inferInstanceAs (Decidable (_ = true))

variable {p : Program} {roles : List OperandRole} {marker : Bool} {index : Nat} {op : Opcode}
  {slots : List Instruction}

theorem fits_cons_op : p.fits [] marker index (.op op :: slots) = true ↔
    (op = .fetchResult → marker = true) ∧
      p.fits op.roles (op == .call) (index + 1) slots = true := by
  rw [fits, Bool.and_eq_true, Bool.or_eq_true, bne_iff_ne]
  constructor
  · rintro ⟨hmarker, hrest⟩
    exact ⟨fun heq => hmarker.resolve_left (fun hne => hne heq), hrest⟩
  · rintro ⟨hmarker, hrest⟩
    refine ⟨?_, hrest⟩
    by_cases heq : op = .fetchResult
    · exact .inr (hmarker heq)
    · exact .inl heq

theorem fits_cons_operand {role : OperandRole} {slot : Instruction} :
    p.fits (role :: roles) marker index (slot :: slots) = true ↔
      p.admits index role slot = true ∧ p.fits roles marker (index + 1) slots = true := by
  rw [fits, Bool.and_eq_true]

theorem range_of_lands {target : Int} (h : p.lands target = true) :
    0 ≤ target ∧ target ≤ p.size := by
  rw [lands, Bool.and_eq_true, Bool.or_eq_true, decide_eq_true_eq] at h
  obtain ⟨hlow, hend | hlanded⟩ := h
  · rw [beq_iff_eq] at hend
    omega
  · split at hlanded
    · next op hop =>
      have hlt : target.toNat < p.size := (Array.getElem?_eq_some_iff.1 hop).1
      omega
    · cases hlanded

/-- What fits still fits after a slot. -/
theorem fits_tail {slot : Instruction} (h : p.fits roles marker index (slot :: slots) = true) :
    ∃ roles' marker', p.fits roles' marker' (index + 1) slots = true := by
  cases roles with
  | nil =>
    cases slot with
    | op op => exact ⟨_, _, (fits_cons_op.1 h).2⟩
    | immediate n => cases h
    | symbol id => cases h
  | cons role roles => exact ⟨_, _, (fits_cons_operand.1 h).2⟩

/-- An instruction begins at every opcode. -/
theorem fits_at_opcode (h : p.fits roles marker index slots = true) {j : Nat}
    (hop : slots[j]? = some (.op op)) :
    ∃ marker', p.fits [] marker' (index + j) (slots.drop j) = true := by
  induction slots generalizing roles marker index j with
  | nil => cases hop
  | cons slot slots ih =>
    cases j with
    | zero =>
      rw [List.getElem?_cons_zero] at hop
      cases hop
      cases roles with
      | nil => exact ⟨marker, h⟩
      | cons role roles =>
        -- an opcode is no operand
        have hadmits := (fits_cons_operand.1 h).1
        cases role <;> cases hadmits
    | succ j =>
      rw [List.getElem?_cons_succ] at hop
      obtain ⟨roles', marker', htail⟩ := fits_tail h
      have hindex : index + (j + 1) = index + 1 + j := by omega
      rw [hindex, List.drop_succ_cons]
      exact ih htail hop

/-- An instruction that is no marker begins at such a slot. -/
theorem fits_unmarked (h : p.fits [] marker index (.op op :: slots) = true)
    (hop : op ≠ .fetchResult) : p.fits [] false index (.op op :: slots) = true :=
  fits_cons_op.2 ⟨fun heq => absurd heq hop, (fits_cons_op.1 h).2⟩

end Program

/-! ## Places in well-formed code -/

namespace CodeAddress

/-- The slots from an address on. -/
def rest (a : CodeAddress) : List Instruction :=
  a.program.program.code.toList.drop a.index

/-- The place lies in well-formed code, before operands of these roles and whole instructions.  The
first instruction may be a marker if the flag is set. -/
structure Before (roles : List OperandRole) (marker : Bool) (a : CodeAddress) : Prop where
  wellFormed : a.program.program.WellFormed
  index_le : a.index ≤ a.program.program.size
  fits : a.program.program.fits roles marker a.index a.rest = true

variable {a : CodeAddress} {slot : Instruction} {role : OperandRole} {roles : List OperandRole}
  {marker : Bool} {op : Opcode}

theorem rest_of_slot (h : a.slot? = some slot) : a.rest = slot :: (a.advance 1).rest := by
  have hlt := (Array.getElem?_eq_some_iff.1 h).1
  have hget := (Array.getElem?_eq_some_iff.1 h).2
  rw [rest, List.drop_eq_getElem_cons (by simpa using hlt), Array.getElem_toList, hget]
  rfl

theorem rest_of_end (h : a.slot? = none) : a.rest = [] := by
  rw [rest, List.drop_eq_nil_iff]
  exact Array.getElem?_eq_none_iff.1 h

theorem advance_le (h : a.slot? = some slot) : (a.advance 1).index ≤ a.program.program.size :=
  (Array.getElem?_eq_some_iff.1 h).1

namespace Before

/-- Something lies where an operand is expected. -/
theorem operand (h : a.Before (role :: roles) marker) : ∃ slot, a.slot? = some slot ∧
    a.program.program.admits a.index role slot = true ∧ (a.advance 1).Before roles marker := by
  obtain ⟨hwell, hle, hfits⟩ := h
  cases hslot : a.slot? with
  | none =>
    rw [rest_of_end hslot] at hfits
    cases hfits
  | some slot =>
    rw [rest_of_slot hslot] at hfits
    obtain ⟨hadmits, hrest⟩ := Program.fits_cons_operand.1 hfits
    exact ⟨slot, rfl, hadmits, hwell, advance_le hslot, hrest⟩

theorem opcode (h : a.Before [] marker) (hslot : a.slot? = some (.op op)) :
    (op = .fetchResult → marker = true) ∧ (a.advance 1).Before op.roles (op == .call) := by
  obtain ⟨hwell, hle, hfits⟩ := h
  rw [rest_of_slot hslot] at hfits
  obtain ⟨hmarker, hrest⟩ := Program.fits_cons_op.1 hfits
  exact ⟨hmarker, hwell, advance_le hslot, hrest⟩

/-- Where an instruction is expected there is one, or the code ends. -/
theorem legible (h : a.Before [] false) : a.Legible := by
  cases hslot : a.slot? with
  | none =>
    have hge : a.program.program.size ≤ a.index := Array.getElem?_eq_none_iff.1 hslot
    exact .inl (Nat.le_antisymm h.index_le hge)
  | some slot =>
    cases slot with
    | op op =>
      refine .inr ⟨op, fun heq => ?_, hslot⟩
      cases (h.opcode hslot).1 heq
    | immediate n =>
      have hfits := h.fits
      rw [rest_of_slot hslot] at hfits
      cases hfits
    | symbol id =>
      have hfits := h.fits
      rw [rest_of_slot hslot] at hfits
      cases hfits

theorem unmarked (h : a.Before [] marker) (hslot : a.slot? ≠ some (.op .fetchResult)) :
    a.Before [] false := by
  obtain ⟨hwell, hle, hfits⟩ := h
  refine ⟨hwell, hle, ?_⟩
  cases hslot' : a.slot? with
  | none =>
    rw [rest_of_end hslot']
    rfl
  | some slot =>
    rw [rest_of_slot hslot'] at hfits ⊢
    cases slot with
    | op op =>
      refine Program.fits_unmarked hfits fun heq => hslot ?_
      rw [hslot', heq]
    | immediate n => cases hfits
    | symbol id => cases hfits

theorem marked (h : a.Before [] true) (hslot : a.slot? = some (.op .fetchResult)) :
    (a.advance 1).Before [] false :=
  (h.opcode hslot).2

theorem weaken (h : a.Before [] false) : a.Before [] true := by
  cases hslot : a.slot? with
  | none =>
    refine ⟨h.wellFormed, h.index_le, ?_⟩
    rw [rest_of_end hslot]
    rfl
  | some slot =>
    refine ⟨h.wellFormed, h.index_le, ?_⟩
    have hfits := h.fits
    rw [rest_of_slot hslot] at hfits ⊢
    cases slot with
    | op op => exact Program.fits_cons_op.2 ⟨fun _ => rfl, (Program.fits_cons_op.1 hfits).2⟩
    | immediate n => cases hfits
    | symbol id => cases hfits

/-- An instruction begins at every opcode of well-formed code. -/
theorem of_opcode (hwell : a.program.program.WellFormed) (hslot : a.slot? = some (.op op)) :
    ∃ marker, a.Before [] marker := by
  have hlist : a.program.program.code.toList[a.index]? = some (.op op) := by
    rw [Array.getElem?_toList]
    exact hslot
  obtain ⟨marker, hfits⟩ := Program.fits_at_opcode hwell hlist
  rw [Nat.zero_add] at hfits
  exact ⟨marker, hwell, Nat.le_of_lt (Array.getElem?_eq_some_iff.1 hslot).1, hfits⟩

/-- A branch in well-formed code leads to an instruction or to the end. -/
theorem landing {n : Int64} {target : Nat} (h : a.Before (.branch :: roles) marker)
    (hslot : a.slot? = some (.immediate n)) (htarget : (a.index : Int) + n.toInt = (target : Nat)) :
    (a.jump target).Before [] false := by
  obtain ⟨slot, hslot', hadmits, -⟩ := h.operand
  rw [hslot] at hslot'
  cases hslot'
  have hlands : a.program.program.lands ((a.index : Int) + n.toInt) = true := hadmits
  rw [htarget, Program.lands, Bool.and_eq_true, Bool.or_eq_true] at hlands
  rcases hlands.2 with hend | hlanded
  · have htarget : target = a.program.program.size := by
      rw [beq_iff_eq] at hend
      omega
    refine ⟨h.wellFormed, Nat.le_of_eq htarget, ?_⟩
    have hnone : (a.jump target).slot? = none :=
      Array.getElem?_eq_none_iff.2 (Nat.le_of_eq htarget.symm)
    rw [rest_of_end hnone]
    rfl
  · split at hlanded
    · next op hop =>
      have hslot : (a.jump target).slot? = some (.op op) := hop
      have hwell : (a.jump target).program.program.WellFormed := h.wellFormed
      obtain ⟨marker', hbefore⟩ := of_opcode hwell hslot
      refine hbefore.unmarked fun heq => ?_
      rw [hslot] at heq
      cases heq
      cases hlanded
    · cases hlanded

/-- Operands can be read where they are expected. -/
theorem reads (h : a.Before (role :: roles) marker) : role.Reads a := by
  obtain ⟨slot, hslot, hadmits, -⟩ := h.operand
  cases role with
  | symbol =>
    cases slot with
    | symbol id => exact ⟨id, hslot⟩
    | op op => cases hadmits
    | immediate n => cases hadmits
  | count =>
    cases slot with
    | immediate n => exact ⟨n, hslot, of_decide_eq_true hadmits⟩
    | op op => cases hadmits
    | symbol id => cases hadmits
  | flag =>
    cases slot with
    | immediate n => exact ⟨n, hslot⟩
    | op op => cases hadmits
    | symbol id => cases hadmits
  | branch =>
    cases slot with
    | immediate n =>
      obtain ⟨hlow, hhigh⟩ := Program.range_of_lands hadmits
      exact ⟨n, hslot, hlow, hhigh⟩
    | op op => cases hadmits
    | symbol id => cases hadmits

end Before

end CodeAddress

/-! ## The discipline -/

/-- Control stays on the instructions of well-formed code, whatever becomes of the stack. -/
def controlDiscipline : Discipline where
  checked := True
  framed := False
  counted := False
  program p := p.program.WellFormed
  control := CodeAddress.Before
  frames _ _ _ := True
  leaves _ := True
  enter hp := ⟨hp, Nat.zero_le _, hp⟩
  opcode h hslot := (h.opcode hslot).2
  operand h := by
    obtain ⟨slot, -, -, hrest⟩ := h.operand
    exact hrest
  landing h hslot htarget _ := h.landing hslot htarget
  marked h hslot := h.marked hslot
  unmarked h hslot := h.unmarked hslot
  weaken h := h.weaken
  reads _ h := h.reads
  legible _ h := h.legible
  push _ _ _ := trivial
  shrink _ _ _ := trivial
  set _ _ _ := trivial
  cache _ _ := trivial
  call _ _ _ _ _ _ := trivial
  leave _ _ _ _ _ _ _ := trivial
  covers h := h.elim
  intact h := h.elim

/-! ## What the host provides -/

/-- A value that may be about: if it is a saved address, an instruction or a marker follows
there. -/
def Value.Proper (v : Value) : Prop :=
  ∀ a, v = .address (some a) → a.Before [] true

/-- A value that is no address is proper. -/
theorem Value.proper_of_kind {v : Value} (h : v.kind ≠ .address) : v.Proper :=
  Discipline.value_of_kind (I := controlDiscipline) h

/-- All values in symbols and arrays are proper, and all functions are well-formed. -/
def World.Proper (w : World) : Prop :=
  w.Holds Value.Proper (·.program.WellFormed)

/-- A world without addresses and with well-formed functions is proper. -/
theorem World.proper_of_plain {w : World}
    (h : w.Holds (·.kind ≠ .address) (·.program.WellFormed)) : w.Proper :=
  ⟨fun symbol hsymbol => Value.proper_of_kind (h.symbols symbol hsymbol), h.functions,
    fun e he entry hentry => Value.proper_of_kind (h.containers e he entry hentry)⟩

/-- Given proper values, the routines hand on nothing but proper values and well-formed programs. -/
def Host.Proper (host : Host) : Prop :=
  ∀ routine arguments, (∀ v ∈ arguments, Value.Proper v) →
    (host.routine routine arguments).Keeps Value.Proper (·.program.WellFormed)
      (CodeAddress.Before [] false)

/-- While a macro lies suspended, the host may change the world, and it may replace the result of
the call that the macro has just come back from. -/
def Host.ProperPause (s t : State) : Prop :=
  t.world.Proper ∧
    (t.context = s.context ∨ ∃ v : Value, v.Proper ∧ t.context = s.context.replaceResult v)

/-! ## Runs -/

section Runs

variable {host : Host} {s t : State}

theorem Host.Proper.keeps (h : host.Proper) : host.Keeps controlDiscipline :=
  h

theorem controlDiscipline_enabled (h : controlDiscipline.Clean s)
    (hcontrol : s.context.pc.Before [] false) : controlDiscipline.Enabled s :=
  ⟨⟨⟨h.world, h.values, trivial⟩, hcontrol⟩, fun hf => hf.elim, fun hf => hf.elim, fun _ => trivial⟩

theorem controlDiscipline_answers (hhost : host.Proper) (fuel : Nat) :
    controlDiscipline.Answers (host.resume fuel) :=
  Discipline.answers_runSlice hhost.keeps (fun _ => controlDiscipline_enabled) fuel 0

theorem controlDiscipline_pause (h : controlDiscipline.Ready false s)
    (hpause : Host.ProperPause s t) : controlDiscipline.Ready false t := by
  obtain ⟨w, c⟩ := t
  obtain ⟨hworld, hcontext | ⟨v, hv, hcontext⟩⟩ := hpause
  · cases hcontext
    exact ⟨⟨hworld, h.sound.values, trivial⟩, h.control⟩
  · have hcontext : c = s.context.replaceResult v := hcontext
    rw [hcontext, Context.replaceResult]
    split
    · refine ⟨⟨hworld, fun u hu => ?_, trivial⟩, h.control⟩
      rcases Array.mem_or_eq_of_mem_setIfInBounds hu with hu | rfl
      · exact h.sound.values u hu
      · exact hv
    · exact ⟨⟨hworld, h.sound.values, trivial⟩, h.control⟩

/-- The next instruction is fetched with its operands without a fault. -/
theorem controlDiscipline_fetches {fuel : Nat} {e : Fault} (hhost : host.Proper)
    (h : controlDiscipline.Ready false s)
    (hstep : Execution.step host (host.resume fuel) s = .error (.fault e) t) : ¬ e.IsFetch := by
  have hmeets := Discipline.step_meets hhost.keeps (controlDiscipline_answers hhost fuel) s
    (controlDiscipline_enabled h.sound.clean h.control)
  rw [hstep] at hmeets
  exact (hmeets.2 e rfl).1 trivial

theorem controlDiscipline_runs (hhost : host.Proper) (h : controlDiscipline.Ready false s)
    (hrun : host.Runs (fun _ => True) Host.ProperPause s t) : controlDiscipline.Ready false t :=
  h.runs hhost.keeps (controlDiscipline_answers hhost)
    (fun _ hu _ => controlDiscipline_enabled hu.sound.clean hu.control)
    (fun _ _ hu hpause => controlDiscipline_pause hu hpause) hrun

/-- Control stays on instructions.  Let the macro that is started and all functions be well-formed,
and let the host provide no addresses, or none but places where an instruction or a marker follows.
Then in every run, whatever the code does to its stack, the next slot is an opcode that is no
marker, or the code ends.  No instruction and no slice fails in fetching an opcode or an operand. -/
theorem Host.control_stays_on_instructions {w : World} {p : ProgramRef} {arguments : List Value}
    {target : Option DocumentHandle} {c : Context} (hhost : host.Proper) (hworld : w.Proper)
    (hprogram : p.program.WellFormed) (harguments : ∀ v ∈ arguments, Value.Proper v)
    (hstart : Context.start p arguments host.limits.stackSize target = .ok c)
    (hrun : host.Runs (fun _ => True) Host.ProperPause ⟨w, c⟩ s) :
    s.context.pc.Legible ∧
    (∀ fuel e t, Execution.step host (host.resume fuel) s = .error (.fault e) t → ¬ e.IsFetch) ∧
    ∀ fuel e w', host.resume fuel s.world s.context = some (.failed e, w') → ¬ e.IsFetch := by
  obtain ⟨hclean, hpc⟩ := Discipline.start_clean (I := controlDiscipline) hworld harguments hstart
  have hbegin : controlDiscipline.Ready false ⟨w, c⟩ :=
    ⟨⟨hclean.world, hclean.values, trivial⟩, hpc ▸ controlDiscipline.enter hprogram⟩
  have hready := controlDiscipline_runs hhost hbegin hrun
  refine ⟨hready.control.legible, ?_, ?_⟩
  · intro fuel e t hstep
    exact controlDiscipline_fetches hhost hready hstep
  · intro fuel e w' hfailed
    rcases Host.runs_of_failed Host.ProperPause hfailed with
      rfl | ⟨t, t', fuel', hrest, hstep⟩
    · exact not_false
    · exact controlDiscipline_fetches hhost (controlDiscipline_runs hhost hready hrest) hstep

end Runs

namespace Sample

/-- A function that takes the bookkeeping of its own frame off the stack, the saved address last. -/
def strip : ProgramRef :=
  ⟨1, ⟨#[.op .assign, .symbol ⟨1⟩, .op .assign, .symbol ⟨1⟩, .op .assign, .symbol ⟨1⟩, .op .assign,
    .symbol ⟨1⟩], []⟩⟩

/-- A macro that calls the function and wants a result. -/
def callStrip : ProgramRef :=
  ⟨0, ⟨#[.op .call, .symbol ⟨0⟩, .immediate 0, .op .fetchResult, .op .returnValue], []⟩⟩

/-- The macro at its start.  The variable that the function assigns to is global. -/
def stripStarted : State :=
  ⟨.ofSymbols
      ((SymbolTable.empty.defineFunction "strip" strip).2.install "kept" .global .unset).2,
    ⟨#[.address none, .frame none, .int 0, .unset], 16, 4, ⟨callStrip, 0⟩, none, none⟩⟩

/-- The state after an instruction. -/
def after (s : State) : State :=
  match Execution.step host (host.resume 0) s with
  | .ok _ t => t
  | .error _ t => t

/-- The macro in the function once its bookkeeping is gone. -/
def stripped : State :=
  after (after (after (after (after stripStarted))))

end Sample

/-- The saved address is in a variable, and still control is at an instruction or at the end. -/
theorem Host.control_stays_on_instructions_when_stripped :
    (Sample.stripped.world.symbols.get? ⟨1⟩).map (·.value) =
        some (.address (some ⟨Sample.callStrip, 3⟩)) ∧
      Sample.stripped.context.stack.size = 4 ∧ Sample.stripped.context.fp = 8 ∧
      Sample.stripped.context.pc.Legible := by
  have hhost : Sample.host.Proper := by
    intro routine arguments _ v hv
    cases hv
    exact Value.proper_of_kind (by decide)
  have hsymbols : Sample.stripStarted.world.symbols.symbols =
      #[⟨"strip", .function, .program Sample.strip⟩, ⟨"kept", .global, .unset⟩] := rfl
  have hworld : Sample.stripStarted.world.Proper := by
    refine World.proper_of_plain ⟨?_, ?_, fun e he => absurd he (Array.not_mem_empty e)⟩
    · rw [hsymbols]
      decide
    · rw [hsymbols]
      intro symbol hsymbol hkind p hp
      simp only [List.mem_toArray, List.mem_cons, List.not_mem_nil, or_false] at hsymbol
      rcases hsymbol with rfl | rfl
      · cases hp
        decide
      · cases hkind
  have hrun : Sample.host.Runs (fun _ => True) Host.ProperPause Sample.stripStarted
      Sample.stripped :=
    .step (.step (.step (.step (.step .start trivial ⟨0, rfl⟩ (by decide)) trivial ⟨0, rfl⟩
      (by decide)) trivial ⟨0, rfl⟩ (by decide)) trivial ⟨0, rfl⟩ (by decide)) trivial ⟨0, rfl⟩
      (by decide)
  have hstart : Context.start Sample.callStrip [] Sample.host.limits.stackSize none =
      .ok Sample.stripStarted.context := rfl
  have hsafe := Host.control_stays_on_instructions hhost hworld (by decide)
    (fun v hv => by cases hv) hstart hrun
  exact ⟨rfl, rfl, rfl, hsafe.1⟩

end MacroMachine
