import MacroMachine.Proofs.Activations

/-!
# Local variables

The variables that are declared while a program is put together become the local variables of its
frames.  This module follows them all the way: from the operations on the symbol table, through the
layout that finishing makes, to what the instructions of a running macro find.

*Names.*  Code names a variable by its symbol, and the symbol has the offset.  As long as the
symbols of a program are not altered and its code names no variables of other programs, what was
written to a slot is what was written to its variable (`State.Faithful`, `lookup_storesIn`).

*Faults.*  Two faults are about local variables: a symbol has no offset, or the slot lies outside
the frame.  Neither can happen then (`Execution.SparesLocals`).
-/

namespace MacroMachine

/-! ## Layouts -/

/-- The variables of a program lie in its frames in the order of their declaration, each in a slot
of its own. -/
structure SymbolTable.LaysOut (t : SymbolTable) (p : Program) : Prop where
  declared : p.locals.Pairwise fun older newer => older.index < newer.index
  distinct : p.locals.Nodup
  placed : ∀ i id, p.locals[i]? = some id → t.Places id i

/-- A finished program is laid out. -/
theorem Assembler.laysOut_finish (a : Assembler) {t : SymbolTable} (h : t.Scoped)
    (hcount : t.locals.length ≤ 2147483648) : (a.finish t).2.2.LaysOut (a.finish t).1 where
  declared := a.declared_finish h
  distinct := a.nodup_finish h
  placed _ _ hi := a.places_finish h hcount hi

/-- The symbols of the variables of a program are as they were when it was finished. -/
def SymbolTable.KeepsLocals (t finished : SymbolTable) (p : Program) : Prop :=
  ∀ id ∈ p.locals, t.get? id = finished.get? id

/-- The symbols of the program are not altered, and the next instruction names no variables of
frames but those of the program. -/
structure State.Faithful (s : State) (finished : SymbolTable) (p : Program) : Prop where
  keeps : s.world.symbols.KeepsLocals finished p
  own : ∀ id, s.Operand id → s.world.symbols.kind? id = some .frameLocal → id ∈ p.locals

/-! ## Writes by name -/

/-- What was written to variables in the frame at a frame pointer, the latest first. -/
def writesIn (g : Nat) (since : List (State × State)) : List (SymbolId × Value) :=
  since.flatMap fun k => if k.1.context.fp = g then k.1.writes else []

section Names

variable {t finished : SymbolTable} {p : Program} {s : State} {id : SymbolId} {i : Nat}

theorem SymbolTable.KeepsLocals.places (h : t.KeepsLocals finished p) (hlaid : finished.LaysOut p)
    (hi : p.locals[i]? = some id) : t.Places id i := by
  obtain ⟨symbol, hget, hkind, hoffset⟩ := hlaid.placed i id hi
  exact ⟨symbol, (h id (List.mem_of_getElem? hi)).trans hget, hkind, hoffset⟩

/-- A variable that the next instruction names has its place among those of the program. -/
theorem State.Faithful.place_of_operand (h : s.Faithful finished p) (hlaid : finished.LaysOut p)
    {offset : Nat} (hoperand : s.Operand id) (hplaces : s.world.symbols.Places id offset) :
    p.locals[offset]? = some id := by
  obtain ⟨j, hj⟩ := List.mem_iff_getElem?.1 (h.own id hoperand hplaces.kind?)
  rwa [hplaces.unique (h.keeps.places hlaid hj)]

/-- What is written to a slot is what is written to its variable. -/
theorem State.Faithful.lookup_slots (h : s.Faithful finished p) (hlaid : finished.LaysOut p)
    (hi : p.locals[i]? = some id) (writes : List (SymbolId × Value))
    (hwrites : ∀ w ∈ writes, s.Operand w.1) :
    (writes.flatMap s.world.symbols.slots).lookup i = writes.lookup id := by
  induction writes with
  | nil => rfl
  | cons w writes ih =>
    obtain ⟨other, v⟩ := w
    have hrest := ih fun w hw => hwrites w (List.mem_cons_of_mem _ hw)
    have hoperand := hwrites (other, v) List.mem_cons_self
    rw [List.flatMap_cons, List.lookup_append, hrest, List.lookup_cons]
    by_cases hid : id = other
    · subst hid
      have hplace := SymbolTable.placeOf?_eq_frame.2 (h.keeps.places hlaid hi)
      rw [SymbolTable.slots_of_place hplace, beq_self_eq_true]
      simp [Place.slots]
    · have hnone : (s.world.symbols.slots (other, v)).lookup i = none := by
        refine List.lookup_eq_none_iff.2 fun slot hslot => ?_
        obtain ⟨offset, x⟩ := slot
        have hother := h.place_of_operand hlaid hoperand (SymbolTable.places_of_mem_slots hslot)
        refine bne_iff_ne.2 fun hoffset => hid ?_
        cases hoffset
        exact Option.some.inj (hi.symm.trans hother)
      rw [hnone, beq_false_of_ne hid, Option.none_or]

theorem State.Faithful.lookup_stores (h : s.Faithful finished p) (hlaid : finished.LaysOut p)
    (hi : p.locals[i]? = some id) : s.stores.lookup i = s.writes.lookup id :=
  h.lookup_slots hlaid hi s.writes fun _ hw => State.operand_of_mem_writes hw

/-- In a whole activation, too. -/
theorem lookup_storesIn {g : Nat} {since : List (State × State)} (hlaid : finished.LaysOut p)
    (hi : p.locals[i]? = some id)
    (hfaithful : ∀ k ∈ since, k.1.context.fp = g → k.1.Faithful finished p) :
    (storesIn g since).lookup i = (writesIn g since).lookup id := by
  induction since with
  | nil => rfl
  | cons k since ih =>
    have hrest := ih fun k hk => hfaithful k (List.mem_cons_of_mem _ hk)
    have hcons : writesIn g (k :: since) =
        (if k.1.context.fp = g then k.1.writes else []) ++ writesIn g since := List.flatMap_cons
    rw [storesIn_cons, hcons, List.lookup_append, List.lookup_append, hrest, State.storesAt]
    by_cases hfp : k.1.context.fp = g
    · have hnow := hfaithful k List.mem_cons_self hfp
      rw [if_pos hfp, if_pos hfp, hnow.lookup_stores hlaid hi]
    · rw [if_neg hfp, if_neg hfp]
      rfl

end Names

/-! ## Reads -/

/-- A variable lies in a slot of the current frame and is read as this value. -/
structure State.ReadsLocal (s : State) (host : Host) (id : SymbolId) (offset : Nat) (v : Value) :
    Prop where
  place : Execution.place? id s = .ok (some (.frame offset)) s
  slot : Execution.read (.frame offset) s = .ok v s
  value : ∀ invoke, Execution.symbolValue invoke id s = .ok v s
  /-- An instruction that reads it puts the value on the stack. -/
  pushed : ∀ nested, s.Reads id → v.isUnset = false → s.context.stack.size < s.context.limit →
    Execution.step host nested s = .ok .next (s.past .pushSymbol (s.context.stack.push v))
  /-- It refuses to do so if there is no value. -/
  unset : ∀ nested, s.Reads id → v.isUnset = true → ∃ t, Execution.step host nested s =
    .error (.fault (.unsetVariable (s.world.symbols.name id))) t

section Reading

variable {host : Host} {s : State} {id : SymbolId} {offset : Nat} {v : Value}

theorem Execution.symbol_of_get? {symbol : Symbol} (h : s.world.symbols.get? id = some symbol) :
    Execution.symbol id s = .ok symbol s := by
  simp only [Execution.symbol, h]

theorem Execution.symbolValue_of_places {invoke : Execution.Caller}
    (hplaces : s.world.symbols.Places id offset)
    (hslot : s.context.stack[s.context.fp + offset]? = some v) :
    Execution.symbolValue invoke id s = .ok v s := by
  obtain ⟨symbol, hget, hkind, hoffset⟩ := hplaces
  have hvalue : Context.localValue offset s.context = .ok v := by
    simp only [Context.localValue, hslot]
  unfold Execution.symbolValue
  rw [Execution.bind_of_ok (Execution.symbol_of_get? hget)]
  simp only [hkind, hoffset]
  exact Execution.view_of_ok hvalue

/-- A variable that has a place in the frame is read there. -/
theorem State.readsLocal_of_places (hplaces : s.world.symbols.Places id offset)
    (hslot : s.context.stack[s.context.fp + offset]? = some v) :
    s.ReadsLocal host id offset v where
  place := by
    obtain ⟨symbol, hget, hkind, hoffset⟩ := hplaces
    unfold Execution.place?
    rw [Execution.bind_of_ok (Execution.symbol_of_get? hget)]
    simp only [hkind, hoffset]
    rfl
  slot := by
    have hvalue : Context.localValue offset s.context = .ok v := by
      simp only [Context.localValue, hslot]
    exact Execution.view_of_ok hvalue
  value _ := Execution.symbolValue_of_places hplaces hslot
  pushed nested hreads hset hroom :=
    hreads.step_eq_ok_iff.2 ⟨v, s.reading, Execution.symbolValue_of_places hplaces hslot, hset,
      hroom, rfl, rfl⟩
  unset nested hreads hunset := by
    have hvalue : Execution.symbolValue (Execution.invoke host nested) id s.reading =
        .ok v s.reading := Execution.symbolValue_of_places hplaces hslot
    refine ⟨s.reading, ?_⟩
    rw [hreads.step_eq, Execution.bind_of_ok hvalue, hunset]
    rfl

end Reading

/-! ## Faults -/

/-- The fault is about a local variable: it has no place in the frame, or one outside the frame. -/
def Fault.BlamesLocal : Fault → Prop
  | .malformed (.localOutsideFrame _) => True
  | .malformed (.noFrameOffset _) => True
  | _ => False

/-- If the execution fails, it is not because of a local variable. -/
def Execution.SparesLocals {α : Type} (x : Execution α) (s : State) : Prop :=
  ∀ fault t, x s = .error (.fault fault) t → ¬ fault.BlamesLocal

/-- If the place is a slot of the current frame, it lies on the stack. -/
def Place.Inside (place : Place) (c : Context) : Prop :=
  ∀ offset, place = .frame offset → c.fp + offset < c.stack.size

theorem Place.Inside.put {place : Place} {s : State} (h : place.Inside s.context) (other : Place)
    (v : Value) : place.Inside (s.put other v).context := by
  cases other with
  | global id => exact h
  | frame written =>
    intro offset hplace
    show s.context.fp + offset < (Array.setIfInBounds _ _ _).size
    rw [Array.size_setIfInBounds]
    exact h offset hplace

namespace Execution.SparesLocals

variable {α β : Type} {x : Execution α} {f : α → Execution β} {s t : State} {a : α}
  {id : SymbolId} {place : Place} {v : Value}

theorem of_ok (h : x s = .ok a t) : SparesLocals x s := by
  intro fault u herror
  cases h.symm.trans herror

theorem raise {fault : Fault} (h : ¬ fault.BlamesLocal) :
    SparesLocals (Execution.raise fault : Execution α) s := by
  intro _ _ herror
  cases herror
  exact h

theorem bind (hx : SparesLocals x s) (hf : ∀ a t, x s = .ok a t → SparesLocals (f a) t) :
    SparesLocals (x >>= f) s := by
  intro fault u herror
  cases heq : x s with
  | ok a t =>
    rw [Execution.bind_of_ok heq] at herror
    exact hf a t heq fault u herror
  | error halt t =>
    rw [Execution.bind_of_error heq] at herror
    cases herror
    exact hx fault _ heq

theorem transition {tr : Transition α}
    (h : ∀ fault c, tr s.context = .error fault c → ¬ fault.BlamesLocal) :
    SparesLocals (Execution.transition tr) s := by
  intro fault u herror
  obtain ⟨w, c⟩ := s
  cases heq : tr c with
  | ok a c' => cases (Execution.transition_of_ok heq).symm.trans herror
  | error e c' =>
    cases (Execution.transition_of_error heq).symm.trans herror
    exact h fault c' heq

theorem fetchSymbol : SparesLocals (Execution.transition Context.fetchSymbol) s := by
  refine transition fun fault c h => ?_
  unfold Context.fetchSymbol at h
  split at h
  · cases h
  · cases h
    exact not_false

theorem not_blamesLocal_of_fetchImmediate {c c' : Context} {fault : Fault}
    (h : Context.fetchImmediate c = .error fault c') : ¬ fault.BlamesLocal := by
  unfold Context.fetchImmediate at h
  split at h
  · cases h
  · cases h
    exact not_false

theorem fetchImmediate : SparesLocals (Execution.transition Context.fetchImmediate) s :=
  transition fun _ _ => not_blamesLocal_of_fetchImmediate

theorem fetchCount : SparesLocals (Execution.transition Context.fetchCount) s := by
  refine transition fun fault c h => ?_
  unfold Context.fetchCount at h
  split at h
  · split at h
    · cases h
      exact not_false
    · cases h
  · next hfetch =>
    cases h
    exact not_blamesLocal_of_fetchImmediate hfetch

theorem fetchBranch : SparesLocals (Execution.transition Context.fetchBranch) s := by
  refine transition fun fault c h => ?_
  unfold Context.fetchBranch at h
  split at h
  · dsimp only at h
    split at h
    · cases h
    · cases h
      exact not_false
  · next hfetch =>
    cases h
    exact not_blamesLocal_of_fetchImmediate hfetch

theorem pop : SparesLocals Execution.pop s := by
  refine transition fun fault c h => ?_
  unfold Context.pop at h
  split at h
  · cases h
  · cases h
    exact not_false

theorem push (v : Value) : SparesLocals (Execution.push v) s := by
  refine transition fun fault c h => ?_
  unfold Context.push at h
  split at h
  · cases h
    exact not_false
  · cases h

theorem symbol (id : SymbolId) : SparesLocals (Execution.symbol id) s := by
  intro fault u h
  unfold Execution.symbol at h
  split at h
  · cases h
  · cases h
    exact not_false

theorem symbolName (id : SymbolId) : SparesLocals (Execution.symbolName id) s :=
  of_ok rfl

/-- A value goes on the stack, and the instruction is over. -/
theorem pushed (v : Value) :
    SparesLocals (do Execution.push v; return .next : Execution Outcome) s :=
  bind (push v) fun _ _ _ => of_ok rfl

/-! ### Places -/

theorem frameOffset_of_places {symbols : SymbolTable} {symbol : Symbol}
    (h : symbols.kind? id = some .frameLocal → ∃ offset, symbols.Places id offset)
    (hget : symbols.get? id = some symbol) (hkind : symbol.kind = .frameLocal) :
    ∃ offset, symbol.frameOffset = .ok offset := by
  obtain ⟨offset, found, hfound, -, hoffset⟩ := h (by
    rw [SymbolTable.kind?_of_get? hget, hkind])
  cases hget.symm.trans hfound
  exact ⟨offset, hoffset⟩

theorem place? (h : s.world.symbols.kind? id = some .frameLocal →
    ∃ offset, s.world.symbols.Places id offset) : SparesLocals (Execution.place? id) s := by
  refine bind (symbol id) fun found t hsymbol => ?_
  obtain ⟨rfl, hget⟩ := Execution.symbol_eq_ok hsymbol
  cases hkind : found.kind with
  | frameLocal =>
    obtain ⟨offset, hoffset⟩ := frameOffset_of_places h hget hkind
    simp only [hoffset]
    exact of_ok rfl
  | _ => exact of_ok rfl

theorem iteratorPlace (h : s.world.symbols.kind? id = some .frameLocal →
    ∃ offset, s.world.symbols.Places id offset) : SparesLocals (Execution.iteratorPlace id) s := by
  refine bind (symbol id) fun found t hsymbol => ?_
  obtain ⟨rfl, hget⟩ := Execution.symbol_eq_ok hsymbol
  cases hkind : found.kind with
  | frameLocal =>
    obtain ⟨offset, hoffset⟩ := frameOffset_of_places h hget hkind
    simp only [hoffset]
    exact of_ok rfl
  | _ => exact raise not_false

theorem read (h : place.Inside s.context) : SparesLocals (Execution.read place) s := by
  cases place with
  | frame offset =>
    have hlt := h offset rfl
    have hvalue : Context.localValue offset s.context =
        .ok (s.context.stack[s.context.fp + offset]) := by
      rw [Context.localValue, Array.getElem?_eq_getElem hlt]
    exact of_ok (Execution.view_of_ok hvalue)
  | global id => exact bind (symbol id) fun _ _ _ => of_ok rfl

theorem write (h : place.Inside s.context) (v : Value) :
    SparesLocals (Execution.write place v) s := by
  cases place with
  | frame offset =>
    have hset : Context.setLocal offset v s.context = .ok () { s.context with
        stack := s.context.stack.setIfInBounds (s.context.fp + offset) v } :=
      if_pos (h offset rfl)
    exact of_ok (Execution.transition_of_ok hset)
  | global id => exact bind (symbol id) fun _ _ _ => of_ok rfl

theorem advance (h : place.Inside s.context) (it : Iterator) :
    SparesLocals (Execution.advance place it) s := by
  refine bind (of_ok rfl) fun w t hworld => ?_
  cases hworld
  cases it.next s.world.store with
  | error key => exact raise not_false
  | ok answer => exact bind (write h _) fun _ _ _ => of_ok rfl

theorem step {host : Host} {nested : Runner} {op : Opcode}
    (hop : s.context.pc.slot? = some (.op op))
    (h : SparesLocals (Execution.carryOut (Execution.invoke host nested) op) (s.opened op)) :
    SparesLocals (Execution.step host nested) s := by
  intro fault t herror
  rw [Execution.step_of_opcode hop] at herror
  exact h fault t herror

end Execution.SparesLocals

/-- The variables of frames that the next instruction names are slots of the current one. -/
def State.OperandsPlaced (s : State) : Prop :=
  ∀ id, s.Operand id → s.world.symbols.kind? id = some .frameLocal →
    ∃ offset < s.context.localCount, s.world.symbols.Places id offset

section Faults

variable {host : Host} {nested : Runner} {s : State} {id : SymbolId} {finished : SymbolTable}
  {p : Program}

theorem State.Faithful.operandsPlaced (h : s.Faithful finished p) (hlaid : finished.LaysOut p)
    (hprogram : s.context.pc.program.program = p) : s.OperandsPlaced := by
  intro id hoperand hkind
  obtain ⟨offset, hoffset⟩ := List.mem_iff_getElem?.1 (h.own id hoperand hkind)
  refine ⟨offset, ?_, h.keeps.places hlaid hoffset⟩
  rw [Context.localCount, hprogram]
  exact (List.getElem?_eq_some_iff.1 hoffset).1

/-- A call of a variable is refused. -/
theorem Execution.sparesLocals_call (hop : s.context.pc.slot? = some (.op .call))
    (hname : (s.context.pc.advance 1).slot? = some (.symbol id))
    (hkind : s.world.symbols.kind? id = some .frameLocal) :
    Execution.SparesLocals (Execution.step host nested) s := by
  refine .step hop (.bind .fetchSymbol fun found s₁ hfetch => ?_)
  obtain ⟨hfound, rfl⟩ := Execution.fetchSymbol_eq_ok hfetch
  cases hname.symm.trans hfound
  refine .bind .fetchCount fun count s₂ hcount => ?_
  obtain ⟨n, -, -, rfl⟩ := Execution.fetchCount_eq_ok hcount
  refine .bind (.symbol id) fun symbol s₃ hsymbol => ?_
  obtain ⟨rfl, hget⟩ := Execution.symbol_eq_ok hsymbol
  have hlocal : symbol.kind = .frameLocal :=
    Option.some.inj ((SymbolTable.kind?_of_get? hget).symm.trans hkind)
  simp only [hlocal]
  exact .raise not_false

namespace State.OperandsPlaced

theorem exists_place (h : s.OperandsPlaced) (hoperand : s.Operand id)
    (hkind : s.world.symbols.kind? id = some .frameLocal) :
    ∃ offset, s.world.symbols.Places id offset := by
  obtain ⟨offset, -, hplaces⟩ := h id hoperand hkind
  exact ⟨offset, hplaces⟩

/-- They are on the stack as long as the frame is. -/
theorem inside (h : s.OperandsPlaced) (hoperand : s.Operand id) {place : Place}
    (hplace : s.world.symbols.placeOf? id = some place) {c : Context}
    (hfp : c.fp = s.context.fp) (hroom : s.context.fp + s.context.localCount ≤ c.stack.size) :
    place.Inside c := by
  rintro offset rfl
  have hplaces := SymbolTable.placeOf?_eq_frame.1 hplace
  obtain ⟨offset', hlt, hplaces'⟩ := h id hoperand hplaces.kind?
  cases hplaces.unique hplaces'
  omega

variable (h : s.OperandsPlaced)
include h

theorem sparesLocals_assign (hop : s.context.pc.slot? = some (.op .assign))
    (habove : s.context.OperandsAbove) :
    Execution.SparesLocals (Execution.step host nested) s := by
  have hroom := habove.room_of_one (Effects.demand_eq hop)
  refine .step hop (.bind .fetchSymbol fun id s₁ hfetch => ?_)
  obtain ⟨hname, rfl⟩ := Execution.fetchSymbol_eq_ok hfetch
  have hoperand : s.Operand id := Effects.operand 0 hop rfl hname
  refine .bind (.place? (h.exists_place hoperand)) fun place s₂ hplace => ?_
  cases Execution.place?_eq_ok hplace
  cases place with
  | none => exact .bind (.symbol id) fun _ _ _ => .raise not_false
  | some place =>
    have hfound := Execution.placeOf?_of_place? hplace
    have hplace : s.world.symbols.placeOf? id = some place := hfound
    refine .bind .pop fun v s₃ hpop => ?_
    cases Execution.pop_eq_ok_withStack hpop
    refine .bind (.of_ok rfl) fun copied s₄ hcopy => ?_
    obtain ⟨rfl, rfl⟩ := Execution.withStore_eq_ok hcopy
    refine .bind (.write ?_ _) fun _ _ _ => .of_ok rfl
    refine h.inside hoperand hplace rfl ?_
    show _ ≤ (Array.pop _).size
    rw [Array.size_pop]
    exact Nat.le_sub_one_of_lt hroom

theorem sparesLocals_beginIteration (hop : s.context.pc.slot? = some (.op .beginIteration))
    (habove : s.context.OperandsAbove) :
    Execution.SparesLocals (Execution.step host nested) s := by
  have hroom := habove.room_of_one (Effects.demand_eq hop)
  refine .step hop (.bind .fetchSymbol fun id s₁ hfetch => ?_)
  obtain ⟨hname, rfl⟩ := Execution.fetchSymbol_eq_ok hfetch
  have hoperand : s.Operand id := Effects.operand 0 hop rfl hname
  refine .bind (.iteratorPlace (h.exists_place hoperand)) fun place s₂ hplace => ?_
  obtain ⟨rfl, hfound⟩ := Execution.placeOf?_of_iteratorPlace hplace
  have hplace : s.world.symbols.placeOf? id = some place := hfound
  refine .bind (.bind .pop fun v _ _ => ?_) fun ref s₃ hpopArray => ?_
  · cases v with
    | array ref => exact .of_ok rfl
    | _ => exact .raise not_false
  · obtain ⟨v, s₄, hpop, hcontainer⟩ := Execution.bind_eq_ok hpopArray
    cases Execution.pop_eq_ok_withStack hpop
    cases v with
    | array ref =>
      cases hcontainer
      refine .bind (.of_ok rfl) fun w s₅ hworld => ?_
      cases hworld
      refine .bind (.write ?_ _) fun _ _ _ => .of_ok rfl
      refine h.inside hoperand hplace rfl ?_
      show _ ≤ (Array.pop _).size
      rw [Array.size_pop]
      exact Nat.le_sub_one_of_lt hroom
    | _ => cases hcontainer

theorem sparesLocals_pushArray (hop : s.context.pc.slot? = some (.op .pushArray))
    (hlaid : s.context.WellLaid) : Execution.SparesLocals (Execution.step host nested) s := by
  refine .step hop (.bind .fetchSymbol fun id s₁ hfetch => ?_)
  obtain ⟨hname, rfl⟩ := Execution.fetchSymbol_eq_ok hfetch
  have hoperand : s.Operand id := Effects.operand 0 hop rfl hname
  refine .bind .fetchImmediate fun flag s₂ himmediate => ?_
  obtain ⟨-, rfl⟩ := Execution.fetchImmediate_eq_ok himmediate
  refine .bind (.place? (h.exists_place hoperand)) fun place s₃ hplace => ?_
  cases Execution.place?_eq_ok hplace
  cases place with
  | none => exact .bind (.symbolName id) fun _ _ _ => .raise not_false
  | some place =>
    have hfound := Execution.placeOf?_of_place? hplace
    have hplace : s.world.symbols.placeOf? id = some place := hfound
    refine .bind (.bind (.read ?_) fun v s₄ hread => ?_) fun array _ _ => .pushed array
    · exact h.inside hoperand hplace rfl hlaid.room
    obtain ⟨rfl, -⟩ := Execution.contents?_of_read hread
    split
    · split
      · refine .bind (.of_ok rfl) fun ref s₅ halloc => ?_
        obtain ⟨rfl, rfl⟩ := Execution.withStore_eq_ok halloc
        refine .bind (.write ?_ _) fun _ _ _ => .of_ok rfl
        exact h.inside hoperand hplace rfl hlaid.room
      · exact .bind (.symbolName id) fun _ _ _ => .raise not_false
    · exact .of_ok rfl

theorem sparesLocals_iterate (hop : s.context.pc.slot? = some (.op .iterate))
    (hlaid : s.context.WellLaid) : Execution.SparesLocals (Execution.step host nested) s := by
  refine .step hop (.bind .fetchSymbol fun itemId s₁ hfetch => ?_)
  obtain ⟨hname, rfl⟩ := Execution.fetchSymbol_eq_ok hfetch
  refine .bind .fetchSymbol fun iteratorId s₂ hfetch' => ?_
  obtain ⟨hsecond, rfl⟩ := Execution.fetchSymbol_eq_ok hfetch'
  have hitemOperand : s.Operand itemId := Effects.operand 0 hop rfl hname
  have hiteratorOperand : s.Operand iteratorId := Effects.operand 1 hop rfl hsecond
  refine .bind .fetchBranch fun exit s₃ hexit => ?_
  cases Execution.fetchBranch_eq_ok hexit
  refine .bind (.place? (h.exists_place hitemOperand)) fun item s₄ hitem => ?_
  cases Execution.place?_eq_ok hitem
  cases item with
  | none => exact .bind (.symbolName itemId) fun _ _ _ => .raise not_false
  | some item =>
    have hfound := Execution.placeOf?_of_place? hitem
    have hitem : s.world.symbols.placeOf? itemId = some item := hfound
    refine .bind (.iteratorPlace (h.exists_place hiteratorOperand)) fun place s₅ hplace => ?_
    obtain ⟨rfl, hfound⟩ := Execution.placeOf?_of_iteratorPlace hplace
    have hplace : s.world.symbols.placeOf? iteratorId = some place := hfound
    -- both places lie in the frame, and writing to them does not change that
    have hitemInside : item.Inside (State.context ⟨Execution.recorded .iterate s,
        { s.context with pc := s.context.pc.advance 4 }⟩) :=
      h.inside hitemOperand hitem rfl hlaid.room
    have hplaceInside : place.Inside (State.context ⟨Execution.recorded .iterate s,
        { s.context with pc := s.context.pc.advance 4 }⟩) :=
      h.inside hiteratorOperand hplace rfl hlaid.room
    refine .bind (.read hplaceInside) fun v s₆ hread => ?_
    obtain ⟨rfl, -⟩ := Execution.contents?_of_read hread
    cases v with
    | iterator it =>
      refine .bind (.write hitemInside _) fun _ s₇ hclear => ?_
      cases Execution.write_eq_ok hclear
      refine .bind (.advance (hplaceInside.put item _) it) fun key s₈ hadvance => ?_
      obtain ⟨moved, -, rfl⟩ := Execution.moved_of_advance hadvance
      cases key with
      | some key =>
        refine .bind (.write ?_ (.text key)) fun _ _ _ => .of_ok rfl
        exact (hitemInside.put item _).put place _
      | none => exact .bind (.of_ok rfl) fun _ _ _ => .of_ok rfl
    | _ => exact .bind (.symbolName iteratorId) fun _ _ _ => .raise not_false

theorem sparesLocals_pushSymbol (hreads : s.Reads id) (hlaid : s.context.WellLaid)
    (hkind : s.world.symbols.kind? id = some .frameLocal) :
    Execution.SparesLocals (Execution.step host nested) s := by
  have hoperand : s.Operand id := Effects.operand 0 hreads.opcode rfl hreads.name
  obtain ⟨offset, hlt, hplaces⟩ := h id hoperand hkind
  have hroom := hlaid.room
  have hin : s.context.fp + offset < s.context.stack.size := by omega
  have hvalue : Execution.symbolValue (Execution.invoke host nested) id s.reading =
      .ok s.context.stack[s.context.fp + offset] s.reading :=
    Execution.symbolValue_of_places hplaces (Array.getElem?_eq_getElem hin)
  intro fault t herror
  rw [hreads.step_eq, Execution.bind_of_ok hvalue] at herror
  split at herror
  · cases herror
    exact not_false
  · exact Execution.SparesLocals.pushed _ _ _ herror

/-- An instruction that names a local variable does not fail because of one. -/
theorem sparesLocals (hlaid : s.context.WellLaid) (habove : s.context.OperandsAbove)
    (hoperand : s.Operand id) (hkind : s.world.symbols.kind? id = some .frameLocal) :
    Execution.SparesLocals (Execution.step host nested) s := by
  obtain ⟨op, i, hop, hrole, hslot⟩ := hoperand
  rcases Opcode.symbol_role hrole with ⟨rfl, hops⟩ | ⟨-, rfl⟩
  · rcases hops with rfl | rfl | rfl | rfl | rfl | rfl
    · exact h.sparesLocals_pushSymbol ⟨hop, hslot⟩ hlaid hkind
    · exact h.sparesLocals_assign hop habove
    · exact Execution.sparesLocals_call hop hslot hkind
    · exact h.sparesLocals_pushArray hop hlaid
    · exact h.sparesLocals_beginIteration hop habove
    · exact h.sparesLocals_iterate hop hlaid
  · exact h.sparesLocals_iterate hop hlaid

end State.OperandsPlaced

end Faults

/-! ## Copies -/

/-- An array that is assigned to a variable is stored as a copy. -/
theorem Effects.Assigns.entries_fresh {s t : State} {outcome : Outcome} {ref : ArrayRef}
    (h : Effects.Assigns s outcome t) (hback : s.context.stack.back? = some (.array ref)) :
    t.world.store.entries s.fresh = s.world.store.entries ref := by
  obtain ⟨-, place, v, u, -, hv, hpopped, rfl⟩ := h
  rw [Array.back?] at hback
  cases hback.symm.trans hv
  have hfresh : s.fresh = u.fresh := by
    rw [State.fresh, State.fresh, hpopped.store]
  show ((u.make _).put place _).world.store.entries s.fresh = _
  rw [State.store_put, hfresh, ← hpopped.store]
  exact Store.entries_alloc _ _

theorem Host.Trail.copies {host : Host} {allowed : Context → Prop}
    {meanwhile : State → State → Prop} {s u : State} {past : List (State × State)}
    (h : host.Trail allowed meanwhile s past u) :
    ∀ k ∈ past, k.1.context.nextIs .assign → ∀ ref,
      k.1.context.stack.back? = some (.array ref) →
      k.2.world.store.entries k.1.fresh = k.1.world.store.entries ref := by
  induction h with
  | start => exact fun k hk => absurd hk List.not_mem_nil
  | step _ _ hstep _ ih =>
    intro k hk hnext ref hback
    rcases List.mem_cons.1 hk with rfl | hk
    · obtain ⟨fuel, hstep⟩ := hstep
      exact (assigns_of_step hstep hnext).entries_fresh hback
    · exact ih k hk hnext ref hback
  | pause _ _ ih => exact ih

/-! ## From declarations to frames -/

/-- What the local variables of a program are in one of its frames, given the instructions since the
frame was entered. -/
structure State.HoldsLocals (u : State) (host : Host) (finished : SymbolTable) (p : Program)
    (g : Nat) (since : List (State × State)) : Prop where
  /-- Each has a slot on the stack, with the last value that was written there in this activation,
  or nothing.  If the symbols are not altered and name the variables of this program only, these are
  the writes to that very variable.  Reading it gives that value. -/
  values : ∀ i id, p.locals[i]? = some id → ∃ v, u.context.stack[g + i]? = some v ∧
    v = ((storesIn g since).lookup i).getD .unset ∧
    ((∀ k ∈ since, k.1.context.fp = g → k.1.Faithful finished p) →
      v = ((writesIn g since).lookup id).getD .unset) ∧
    (u.context.fp = g → u.world.symbols.KeepsLocals finished p → u.ReadsLocal host id i v)
  /-- No access to them fails because of them. -/
  sound : u.context.fp = g → u.Faithful finished p → u.context.OperandsAbove →
    ∀ id ∈ p.locals, u.Operand id → ∀ nested,
      Execution.SparesLocals (Execution.step host nested) u

section Compiled

variable {host : Host} {u : State} {finished : SymbolTable} {p : Program} {g : Nat}
  {q : ProgramRef} {since : List (State × State)}

theorem State.Shows.holdsLocals (h : u.Shows g q since) (hlaid : u.context.WellLaid)
    (hlive : u.context.Live g q) (hout : finished.LaysOut q.program) :
    u.HoldsLocals host finished q.program g since where
  values i id hi := by
    have hslot := h i (List.getElem?_eq_some_iff.1 hi).1
    refine ⟨_, hslot, rfl, fun hfaithful => ?_, ?_⟩
    · rw [lookup_storesIn hout hi hfaithful]
    · rintro rfl hkeeps
      exact State.readsLocal_of_places (hkeeps.places hout hi) hslot
  sound hfp hfaithful habove id hid hoperand nested := by
    have hprogram : u.context.pc.program = q := by
      rcases hlive.apart hlaid.laid with ⟨-, hq⟩ | hapart
      · exact hq.symm
      · omega
    obtain ⟨i, hi⟩ := List.mem_iff_getElem?.1 hid
    have hplaced := hfaithful.operandsPlaced hout (congrArg ProgramRef.program hprogram)
    exact hplaced.sparesLocals hlaid habove hoperand (hfaithful.keeps.places hout hi).kind?

/-- A macro starts in a frame whose local variables have no values yet. -/
theorem Context.shows_start {main : ProgramRef} {arguments : List Value} {limit : Nat}
    {target : Option DocumentHandle} {c : Context} (w : World)
    (h : Context.start main arguments limit target = .ok c) :
    c.WellLaid ∧ ∀ g q, c.Live g q → State.Shows ⟨w, c⟩ g q [] := by
  obtain ⟨hlaid, hunset⟩ := Context.wellLaid_start h
  refine ⟨hlaid, fun g q hlive offset hoffset => ?_⟩
  exact hunset (g + offset) ⟨g, q, hlive, by omega, by omega⟩

end Compiled

/-- From declarations to frames.  After any operations on a symbol table and an assembler, with
changes of the names and values of symbols in between, the variables of the finished program are the
variables of frames that were declared since the local scope was last empty and that were not
promoted, in the order of their declaration, each with its place in the frame.

In every run from the start of a macro whose instructions find their operands above the local
variables, with pauses in which the host may do anything to the world, every live frame of that
program has them in these slots.  There each holds what was last written to it in the activation of
that frame, an array as the copy that was made of it, whatever other frames of the same program or
of other ones have written since, and no access to them fails because of them. -/
theorem Assembler.locals_hold_last_write {edits : List SymbolTable.Edit} {a a' : Assembler}
    {p : Program} {finished : SymbolTable} (hkinds : SymbolTable.KeepKinds edits .empty)
    (hsize : (SymbolTable.edited edits .empty).size ≤ 4294967296)
    (hcount : (SymbolTable.edited edits .empty).locals.length ≤ 2147483648)
    (hfinish : a.finish (SymbolTable.edited edits .empty) = (p, a', finished)) :
    finished.LaysOut p ∧
    (∀ earlier later, edits = earlier ++ later → (SymbolTable.edited earlier .empty).locals = [] →
      (∀ edit ∈ later, ¬ edit.EndsScope) → ∀ id, id ∈ p.locals ↔
        (SymbolTable.edited earlier .empty).size ≤ id.index.toNat ∧
          (SymbolTable.edited edits .empty).kind? id = some .frameLocal) ∧
    ∀ (host : Host) (w : World) (main : ProgramRef) (arguments : List Value) (limit : Nat)
      (target : Option DocumentHandle) (c : Context) (past : List (State × State)) (u : State),
      Context.start main arguments limit target = .ok c →
      host.Trail Context.OperandsAbove Host.CarefulPause ⟨w, c⟩ past u →
      (∀ k ∈ past, k.1.context.nextIs .assign → ∀ ref,
        k.1.context.stack.back? = some (.array ref) →
        k.2.world.store.entries k.1.fresh = k.1.world.store.entries ref) ∧
      ∀ g q, u.context.Live g q → q.program = p → ∃ since,
        Activation ⟨w, c⟩ g q past since ∧ u.HoldsLocals host finished p g since := by
  have hscoped := SymbolTable.scoped_empty.edited hkinds hsize
  have hout : finished.LaysOut p := by
    have hfinished := a.laysOut_finish hscoped hcount
    rwa [hfinish] at hfinished
  refine ⟨hout, ?_, ?_⟩
  · rintro earlier later rfl hempty hlater id
    have happend : SymbolTable.edited (earlier ++ later) .empty =
        SymbolTable.edited later (SymbolTable.edited earlier .empty) := List.foldl_append
    rw [happend] at hsize hfinish ⊢
    obtain ⟨hearlier, hkinds⟩ := SymbolTable.keepKinds_append.1 hkinds
    have hbefore := Nat.le_trans (SymbolTable.size_le_edited later _) hsize
    have hcollects := (SymbolTable.collects_of_empty hempty).edited (Nat.le_refl _)
      (SymbolTable.scoped_empty.edited hearlier hbefore) hkinds hlater hsize
    rw [← hcollects id, ← Assembler.mem_locals_finish (a := a), hfinish]
  · intro host w main arguments limit target c past u hstart htrail
    obtain ⟨hlaid, hunset⟩ := Context.shows_start w hstart
    obtain ⟨hlaid', hshows⟩ := htrail.shows hlaid hunset
    refine ⟨htrail.copies, ?_⟩
    rintro g q hlive rfl
    obtain ⟨since, hactivation, hholds⟩ := hshows g q hlive
    exact ⟨since, hactivation, hholds.holdsLocals hlaid' hlive hout⟩

/-! ## A program that calls itself -/

namespace Sample

/-- A constant and three variables are declared, the third one is altered, and the second one
becomes global. -/
def selfCallSymbols : List SymbolTable.Edit :=
  [.operation (.install "seven" .constant (.int 7)), .operation (.install "x" .frameLocal .unset),
    .operation (.install "y" .frameLocal .unset), .operation (.install "w" .frameLocal .unset),
    .alter ⟨3⟩ ⟨"z", .frameLocal, .int 5⟩, .operation (.promote ⟨2⟩)]

/-- The code of a program that gives its last variable a value and calls itself. -/
def selfCall : Assembler :=
  ⟨{}, #[.op .pushSymbol, .symbol ⟨0⟩, .op .assign, .symbol ⟨3⟩, .op .call, .symbol ⟨4⟩,
    .immediate 0], [], []⟩

/-- The symbols when the program is finished. -/
def laidOut : SymbolTable :=
  (selfCall.finish (SymbolTable.edited selfCallSymbols .empty)).2.2

/-- The program. -/
def selfCaller : ProgramRef :=
  ⟨0, (selfCall.finish (SymbolTable.edited selfCallSymbols .empty)).1⟩

/-- The world that it runs in, where its own name is defined, with what it has executed so far. -/
def selfCallWorld (dispatches : Array Dispatch) : World :=
  { World.ofSymbols (laidOut.defineFunction "f" selfCaller).2 with dispatches }

/-- The program at its start. -/
def selfCallStart : State :=
  ⟨selfCallWorld #[], ⟨#[.address none, .frame none, .int 0, .unset, .unset, .unset], 16, 4,
    ⟨selfCaller, 0⟩, none, none⟩⟩

/-- The program about to give its variable a value. -/
def assigning : State :=
  ⟨selfCallWorld #[⟨.pushSymbol, 0, 6⟩],
    ⟨#[.address none, .frame none, .int 0, .unset, .unset, .unset, .int 7], 16, 4, ⟨selfCaller, 2⟩,
      none, none⟩⟩

/-- The program about to call itself. -/
def recurring : State :=
  ⟨selfCallWorld #[⟨.pushSymbol, 0, 6⟩, ⟨.assign, 2, 7⟩],
    ⟨#[.address none, .frame none, .int 0, .unset, .unset, .int 7], 16, 4, ⟨selfCaller, 4⟩,
      none, none⟩⟩

/-- The program in the call. -/
def recurred : State :=
  ⟨selfCallWorld #[⟨.pushSymbol, 0, 6⟩, ⟨.assign, 2, 7⟩, ⟨.call, 4, 6⟩],
    ⟨#[.address none, .frame none, .int 0, .unset, .unset, .int 7,
        .address (some ⟨selfCaller, 7⟩), .frame (some 4), .int 0, .unset, .unset, .unset], 16, 10,
      ⟨selfCaller, 0⟩, none, none⟩⟩

/-- What has been executed then. -/
def selfCallPast : List (State × State) :=
  [(recurring, recurred), (assigning, recurring), (selfCallStart, assigning)]

theorem assigning_trail : host.Trail Context.OperandsAbove Host.CarefulPause selfCallStart
    [(selfCallStart, assigning)] assigning := by
  have hsteps : host.Steps selfCallStart .next assigning := ⟨0, rfl⟩
  exact .step .start (by decide) hsteps (by decide)

theorem recurred_trail :
    host.Trail Context.OperandsAbove Host.CarefulPause selfCallStart selfCallPast recurred := by
  have hassign : host.Steps assigning .next recurring := ⟨0, rfl⟩
  have hcall : host.Steps recurring .next recurred := ⟨0, rfl⟩
  exact .step (.step assigning_trail (by decide) hassign (by decide)) (by decide) hcall (by decide)

/-- The assignment names a variable of the program and no other one. -/
theorem assigning_faithful : assigning.Faithful laidOut selfCaller.program where
  keeps := by
    show ∀ id ∈ selfCaller.program.locals, _ = _
    decide
  own := by
    rintro id ⟨op, i, hop, hrole, hslot⟩ -
    cases hop
    rcases Opcode.symbol_role hrole with ⟨rfl, -⟩ | ⟨-, hiterate⟩
    · cases hslot
      decide
    · cases hiterate

end Sample

/-- While the outer frame keeps the value that it was given, the variable has none in the inner one
yet. -/
theorem Assembler.locals_hold_last_write_of_selfCall :
    SymbolTable.KeepKinds Sample.selfCallSymbols .empty ∧
    (SymbolTable.edited Sample.selfCallSymbols .empty).size ≤ 4294967296 ∧
    Sample.laidOut.LaysOut Sample.selfCaller.program ∧
    Sample.recurred.ReadsLocal Sample.host ⟨3⟩ 1 .unset ∧
    Sample.recurred.context.stack[4 + 1]? = some (.int 7) ∧
    (∃ since, Activation Sample.selfCallStart 4 Sample.selfCaller Sample.selfCallPast since ∧
      Sample.recurred.HoldsLocals Sample.host Sample.laidOut Sample.selfCaller.program 4 since) ∧
    ∀ nested, Execution.SparesLocals (Execution.step Sample.host nested) Sample.assigning := by
  have hkinds : SymbolTable.KeepKinds Sample.selfCallSymbols .empty := by
    refine ⟨trivial, trivial, trivial, trivial, fun old hold => ?_, trivial, trivial⟩
    cases hold
    rfl
  have hsize : (SymbolTable.edited Sample.selfCallSymbols .empty).size ≤ 4294967296 := by decide
  have hcount : (SymbolTable.edited Sample.selfCallSymbols .empty).locals.length ≤ 2147483648 := by
    decide
  have hfinish : Sample.selfCall.finish (SymbolTable.edited Sample.selfCallSymbols .empty) =
      (Sample.selfCaller.program, .new {}, Sample.laidOut) := rfl
  obtain ⟨hout, -, hruns⟩ := Assembler.locals_hold_last_write hkinds hsize hcount hfinish
  have hstart : Context.start Sample.selfCaller [] 16 none =
      .ok Sample.selfCallStart.context := rfl
  have hcalled := (hruns _ _ _ _ _ _ _ _ _ hstart Sample.recurred_trail).2
  have hassigns := (hruns _ _ _ _ _ _ _ _ _ hstart Sample.assigning_trail).2
  refine ⟨hkinds, hsize, hout, ?_, rfl, hcalled 4 _ (.caller rfl rfl .here) rfl, fun nested => ?_⟩
  · obtain ⟨since, -, hholds⟩ := hcalled 10 _ .here rfl
    obtain ⟨v, hslot, -, -, hreads⟩ := hholds.values 1 ⟨3⟩ rfl
    cases hslot
    refine hreads rfl ?_
    show ∀ id ∈ Sample.selfCaller.program.locals, _ = _
    decide
  · obtain ⟨since, -, hholds⟩ := hassigns 4 _ .here rfl
    refine hholds.sound rfl Sample.assigning_faithful (by decide) ⟨3⟩ (by decide) ?_ nested
    exact ⟨.assign, 0, rfl, rfl, rfl⟩

/-! ## Variables that are not held -/

theorem SymbolTable.edited_operations (ops : List Operation) (t : SymbolTable) :
    edited (ops.map .operation) t = after ops t := by
  rw [edited, List.foldl_map]
  rfl

namespace Sample

/-- A program with a variable `x` is finished; then constants and a variable `y` are declared. -/
def staleSymbols : List SymbolTable.Edit :=
  [.operation (.install "x" .frameLocal .unset), .operation (.finish (.new {})),
    .operation (.install "five" .constant (.int 5)),
    .operation (.install "nine" .constant (.int 9)),
    .operation (.install "y" .frameLocal .unset)]

/-- The code of a program that writes to its variable `y`, then to `x`, and reads `y`. -/
def staleCode : Assembler :=
  ⟨{}, #[.op .pushSymbol, .symbol ⟨1⟩, .op .assign, .symbol ⟨3⟩, .op .pushSymbol, .symbol ⟨2⟩,
    .op .assign, .symbol ⟨0⟩, .op .pushSymbol, .symbol ⟨3⟩, .op .returnValue], [], []⟩

/-- The symbols when the program is finished. -/
def staleTable : SymbolTable :=
  (staleCode.finish (SymbolTable.edited staleSymbols .empty)).2.2

/-- The program. -/
def staleProgram : ProgramRef :=
  ⟨0, (staleCode.finish (SymbolTable.edited staleSymbols .empty)).1⟩

/-- The program with its variable and its operands, and what it has executed so far. -/
def staleState (dispatches : Array Dispatch) (slots : Array Value) (pc : Nat) : State :=
  ⟨{ World.ofSymbols staleTable with dispatches },
    ⟨#[.address none, .frame none, .int 0, .unset] ++ slots, 16, 4, ⟨staleProgram, pc⟩, none, none⟩⟩

/-- The program about to write to `y`. -/
def staleFirst : State :=
  staleState #[⟨.pushSymbol, 0, 5⟩] #[.unset, .int 5] 2

/-- The program when it has written to `y`. -/
def staleWritten : State :=
  staleState #[⟨.pushSymbol, 0, 5⟩, ⟨.assign, 2, 6⟩] #[.int 5] 4

/-- The program about to write to `x`. -/
def staleSecond : State :=
  staleState #[⟨.pushSymbol, 0, 5⟩, ⟨.assign, 2, 6⟩, ⟨.pushSymbol, 4, 5⟩] #[.int 5, .int 9] 6

/-- The program about to read `y`. -/
def staleReading : State :=
  staleState #[⟨.pushSymbol, 0, 5⟩, ⟨.assign, 2, 6⟩, ⟨.pushSymbol, 4, 5⟩, ⟨.assign, 6, 6⟩]
    #[.int 9] 8

/-- What has been executed then. -/
def stalePast : List (State × State) :=
  [(staleSecond, staleReading), (staleWritten, staleSecond), (staleFirst, staleWritten),
    (staleState #[] #[.unset] 0, staleFirst)]

theorem stale_trail : host.Trail Context.OperandsAbove Host.CarefulPause
    (staleState #[] #[.unset] 0) stalePast staleReading := by
  have hpush : host.Steps (staleState #[] #[.unset] 0) .next staleFirst := ⟨0, rfl⟩
  have hassign : host.Steps staleFirst .next staleWritten := ⟨0, rfl⟩
  have hpush' : host.Steps staleWritten .next staleSecond := ⟨0, rfl⟩
  have hassign' : host.Steps staleSecond .next staleReading := ⟨0, rfl⟩
  exact .step (.step (.step (.step .start (by decide) hpush (by decide)) (by decide) hassign
    (by decide)) (by decide) hpush' (by decide)) (by decide) hassign' (by decide)

/-- The code of a program that jumps over an instruction which would take a result, and reads its
variable. -/
def unwrittenCode : Assembler :=
  ⟨{}, #[.op .branch, .immediate 2, .op .fetchResult, .op .pushSymbol, .symbol ⟨0⟩,
    .op .returnValue], [], []⟩

/-- The variable of the program. -/
def unwrittenSymbols : List SymbolTable.Edit :=
  [.operation (.install "x" .frameLocal .unset)]

/-- The program. -/
def unwritten : ProgramRef :=
  ⟨0, (unwrittenCode.finish (SymbolTable.edited unwrittenSymbols .empty)).1⟩

/-- The program with its variable and what it has executed so far. -/
def unwrittenState (dispatches : Array Dispatch) (x : Value) (pc : Nat) : State :=
  ⟨{ World.ofSymbols (unwrittenCode.finish (SymbolTable.edited unwrittenSymbols .empty)).2.2 with
      dispatches },
    ⟨#[.address none, .frame none, .int 0, .unset, x], 16, 4, ⟨unwritten, pc⟩, none, none⟩⟩

/-- A variable is declared and altered into a global one. -/
def turned : List SymbolTable.Edit :=
  [.operation (.install "x" .frameLocal .unset), .alter ⟨0⟩ ⟨"x", .global, .unset⟩]

/-- A table in which so many local variables were declared. -/
def manyVariables (n : Nat) : SymbolTable :=
  SymbolTable.edited ((SymbolTable.declaring .frameLocal n).map .operation) .empty

/-- A table in which a local variable was declared after so many global ones. -/
def variableAfter (n : Nat) : SymbolTable :=
  SymbolTable.edited ((SymbolTable.declaring .global n ++
    [SymbolTable.Operation.install "y" .frameLocal .unset]).map .operation) .empty

end Sample

/-- Local variables are not held in these cases.  Code that names the variable `x` of a program
which was finished before writes to its own variable `y`.  A result that is replaced while the frame
has no operands is put into its last variable.  A variable whose kind is altered stays in the
layout. Of 2147483649 variables the last has no place, and a variable that is declared after
4294967296 other symbols has the number of the first one. -/
theorem Assembler.locals_lost :
    (Context.start Sample.staleProgram [] 16 none =
        .ok (Sample.staleState #[] #[.unset] 0).context ∧
      Sample.host.Trail Context.OperandsAbove Host.CarefulPause (Sample.staleState #[] #[.unset] 0)
        Sample.stalePast Sample.staleReading ∧
      Sample.staleReading.world.symbols.KeepsLocals Sample.staleTable Sample.staleProgram.program ∧
      Sample.staleProgram.program.locals = [⟨3⟩] ∧
      (writesIn 4 Sample.stalePast).lookup ⟨3⟩ = some (.int 5) ∧
      Sample.staleReading.ReadsLocal Sample.host ⟨3⟩ 0 (.int 9)) ∧
    (Context.start Sample.unwritten [] 16 none =
        .ok (Sample.unwrittenState #[] .unset 0).context ∧
      Sample.host.Steps (Sample.unwrittenState #[] .unset 0) .next
        (Sample.unwrittenState #[⟨.branch, 0, 5⟩] .unset 3) ∧
      (Sample.unwrittenState #[⟨.branch, 0, 5⟩] .unset 3).context.replaceResult (.int 5) =
        (Sample.unwrittenState #[⟨.branch, 0, 5⟩] (.int 5) 3).context ∧
      (Sample.unwrittenState #[⟨.branch, 0, 5⟩] (.int 5) 3).ReadsLocal Sample.host ⟨0⟩ 0
        (.int 5)) ∧
    (((new {}).finish (SymbolTable.edited Sample.turned .empty)).1.locals = [⟨0⟩] ∧
      ((new {}).finish (SymbolTable.edited Sample.turned .empty)).2.2.kind? ⟨0⟩ = some .global) ∧
    (∃ id symbol,
      ((new {}).finish (Sample.manyVariables 2147483649)).1.locals[2147483648]? = some id ∧
      ((new {}).finish (Sample.manyVariables 2147483649)).2.2.get? id = some symbol ∧
      symbol.frameOffset = .error (.malformed (.noFrameOffset "x"))) ∧
    ((new {}).finish (Sample.variableAfter 4294967296)).1.locals = [⟨0⟩] ∧
    ((new {}).finish (Sample.variableAfter 4294967296)).2.2.kind? ⟨0⟩ = some .global := by
  refine ⟨⟨rfl, Sample.stale_trail, fun _ _ => rfl, by decide, by decide, ?_⟩,
    ⟨rfl, ⟨0, rfl⟩, rfl, ?_⟩, by decide, ?_, ?_⟩
  · exact State.readsLocal_of_places ⟨_, rfl, rfl, rfl⟩ rfl
  · exact State.readsLocal_of_places ⟨_, rfl, rfl, rfl⟩ rfl
  · obtain ⟨id, hid, hget⟩ := (new {}).finish_declaring (i := 2147483648) (n := 2147483649)
      (by decide) (by decide)
    rw [Sample.manyVariables, SymbolTable.edited_operations]
    exact ⟨id, _, hid, hget, rfl⟩
  · rw [Sample.variableAfter, SymbolTable.edited_operations]
    exact (new {}).finish_declaring_global (n := 4294967296) (by decide)

end MacroMachine
