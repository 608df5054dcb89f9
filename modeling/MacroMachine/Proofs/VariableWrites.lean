import MacroMachine.Proofs.LocalLayout
import MacroMachine.Proofs.Locals
import MacroMachine.Proofs.OperandLayout

/-!
# Writes to variables

The instructions that write to variables are few: an assignment, a look at an array that does not
exist yet, and the two instructions of a loop.  What they write can be told before they are executed
(`State.writes`), and of that, what goes to the current frame (`State.stores`).

The main result is that these are all the writes: an instruction that stays in its frame leaves the
local variables there as they were, but for the latest of its writes to each (`Context.Takes`,
`State.takes_of_stays`).
-/

namespace MacroMachine

/-! ## What an instruction writes -/

/-- The instructions that have symbols as operands. -/
theorem Opcode.symbol_role {op : Opcode} {i : Nat} (h : op.roles[i]? = some .symbol) :
    i = 0 ∧ (op = .pushSymbol ∨ op = .assign ∨ op = .call ∨ op = .pushArray ∨
      op = .beginIteration ∨ op = .iterate) ∨ i = 1 ∧ op = .iterate := by
  match i with
  | 0 =>
    cases op with
    | pushSymbol | assign | call | pushArray | beginIteration | iterate => simp
    | _ => cases h
  | 1 =>
    cases op with
    | iterate => exact .inr ⟨rfl, rfl⟩
    | _ => cases h
  | 2 => cases op <;> cases h
  | _ + 3 => cases op <;> cases h

/-- What writing a value to a place writes to the frame: the offset and the value. -/
def Place.slots (v : Value) : Place → List (Nat × Value)
  | .frame offset => [(offset, v)]
  | .global _ => []

namespace SymbolTable

/-- Where the variable of a symbol lives; none if the symbol is no variable. -/
def placeOf? (t : SymbolTable) (id : SymbolId) : Option Place :=
  match t.get? id with
  | some symbol =>
    match symbol.kind with
    | .frameLocal => symbol.frameOffset.toOption.map .frame
    | .global => some (.global id)
    | _ => none
  | none => none

/-- What writing a value to a variable writes to the frame. -/
def slots (t : SymbolTable) (write : SymbolId × Value) : List (Nat × Value) :=
  ((t.placeOf? write.1).map (Place.slots write.2)).getD []

variable {t : SymbolTable} {id : SymbolId} {symbol : Symbol} {offset : Nat}

theorem placeOf?_of_frameLocal (hget : t.get? id = some symbol) (hkind : symbol.kind = .frameLocal)
    (hoffset : symbol.frameOffset = .ok offset) : t.placeOf? id = some (.frame offset) := by
  simp only [placeOf?, hget, hkind, hoffset]
  rfl

theorem placeOf?_of_global (hget : t.get? id = some symbol) (hkind : symbol.kind = .global) :
    t.placeOf? id = some (.global id) := by
  simp only [placeOf?, hget, hkind]

theorem placeOf?_eq_frame : t.placeOf? id = some (.frame offset) ↔ t.Places id offset := by
  constructor
  · intro h
    unfold placeOf? at h
    cases hget : t.get? id with
    | none => simp [hget] at h
    | some symbol =>
      cases hkind : symbol.kind with
      | frameLocal =>
        cases hframe : symbol.frameOffset with
        | error e => simp [hget, hkind, hframe, Except.toOption] at h
        | ok found =>
          simp only [hget, hkind, hframe] at h
          cases h
          exact ⟨symbol, hget, hkind, hframe⟩
      | _ => simp [hget, hkind] at h
  · rintro ⟨symbol, hget, hkind, hoffset⟩
    exact placeOf?_of_frameLocal hget hkind hoffset

theorem slots_of_place {place : Place} (h : t.placeOf? id = some place) (v : Value) :
    t.slots (id, v) = place.slots v := by
  simp only [slots, h, Option.map_some, Option.getD_some]

/-- Only variables of frames lie in the frame. -/
theorem places_of_mem_slots {write : SymbolId × Value} {v : Value}
    (h : (offset, v) ∈ t.slots write) : t.Places write.1 offset := by
  cases hplace : t.placeOf? write.1 with
  | none => simp [slots, hplace] at h
  | some place =>
    rw [slots_of_place hplace write.2] at h
    cases place with
    | global _ => cases h
    | frame _ =>
      cases List.mem_singleton.1 h
      exact placeOf?_eq_frame.1 hplace

end SymbolTable

namespace State

/-- What a place holds. -/
def contents? (s : State) : Place → Option Value
  | .frame offset => s.context.stack[s.context.fp + offset]?
  | .global id => (s.world.symbols.get? id).map (·.value)

/-- What a variable holds. -/
def held? (s : State) (id : SymbolId) : Option Value :=
  (s.world.symbols.placeOf? id).bind s.contents?

/-- What a turn of a loop writes: it clears the item, moves the iterator on, and gives the item the
next key if there is one. -/
def turnWrites (s : State) (item iterator : SymbolId) : List (SymbolId × Value) :=
  match s.held? iterator with
  | some (.iterator it) =>
    match it.next s.world.store with
    | .ok (key, moved) =>
      key.toList.map (fun key => (item, .text key)) ++
        [(iterator, .iterator moved), (item, .unset)]
    | .error _ => []
  | _ => []

/-- What an instruction writes to variables, given its opcode and its first operand. -/
def writesOf (s : State) : Opcode → SymbolId → List (SymbolId × Value)
  | .assign, id =>
    s.context.stack.back?.toList.map fun v => (id, (s.world.store.copyForAssignment v).1)
  | .pushArray, id =>
    match (s.context.pc.advance 2).slot?, s.held? id with
    | some (.immediate flag), some .unset => if flag = 0 then [] else [(id, .array s.fresh)]
    | _, _ => []
  | .beginIteration, id =>
    match s.context.stack.back? with
    | some (.array ref) => [(id, .iterator (s.world.store.iterate ref))]
    | _ => []
  | .iterate, item =>
    match (s.context.pc.advance 2).slot? with
    | some (.symbol iterator) => s.turnWrites item iterator
    | _ => []
  | _, _ => []

/-- What the next instruction writes to variables if it succeeds, the latest first. -/
def writes (s : State) : List (SymbolId × Value) :=
  match s.context.pc.slot?, (s.context.pc.advance 1).slot? with
  | some (.op op), some (.symbol id) => s.writesOf op id
  | _, _ => []

/-- What the next instruction writes to the frame: offsets and values, the latest first. -/
def stores (s : State) : List (Nat × Value) :=
  s.writes.flatMap s.world.symbols.slots

variable {s t : State} {id : SymbolId} {v : Value} {op : Opcode}

theorem writes_eq (hop : s.context.pc.slot? = some (.op op))
    (hname : (s.context.pc.advance 1).slot? = some (.symbol id)) :
    s.writes = s.writesOf op id := by
  simp only [writes, hop, hname]

/-- A variable that is written is an operand. -/
theorem operand_of_mem_writes (h : (id, v) ∈ s.writes) : s.Operand id := by
  unfold writes at h
  split at h
  · next op first hop hname =>
    have hfirst : op.roles[0]? = some .symbol → s.Operand first := fun hrole =>
      ⟨op, 0, hop, hrole, hname⟩
    cases op with
    | assign =>
      obtain ⟨_, -, heq⟩ := List.mem_map.1 h
      cases heq
      exact hfirst rfl
    | pushArray =>
      simp only [writesOf] at h
      split at h
      · split at h
        · cases h
        · cases List.mem_singleton.1 h
          exact hfirst rfl
      · cases h
    | beginIteration =>
      simp only [writesOf] at h
      split at h
      · cases List.mem_singleton.1 h
        exact hfirst rfl
      · cases h
    | iterate =>
      simp only [writesOf] at h
      split at h
      · next iterator hiterator =>
        have hsecond : s.Operand iterator := ⟨.iterate, 1, hop, rfl, hiterator⟩
        unfold turnWrites at h
        split at h
        · split at h
          · rcases List.mem_append.1 h with hkey | hrest
            · obtain ⟨_, -, heq⟩ := List.mem_map.1 hkey
              cases heq
              exact hfirst rfl
            · rcases List.mem_cons.1 hrest with heq | hlast
              · cases heq
                exact hsecond
              · cases List.mem_singleton.1 hlast
                exact hfirst rfl
          · cases h
        · cases h
      · cases h
    | _ => cases h
  · cases h

/-- An instruction that names no variable of the frame writes to none. -/
theorem stores_eq_nil (h : ∀ offset, ¬ s.Names (.frame offset)) : s.stores = [] := by
  refine List.flatMap_eq_nil_iff.2 fun w hw => List.eq_nil_iff_forall_not_mem.2 ?_
  rintro ⟨offset, v⟩ hslot
  obtain ⟨symbol, hget, hkind, hframe⟩ := SymbolTable.places_of_mem_slots hslot
  exact h offset (.frame (operand_of_mem_writes hw) hget hkind hframe)

end State

/-! ## Work in the newest frame -/

/-- The context is still in its frame, the frames that wait below are as they were, and the local
variables have taken these writes, the latest first. -/
structure Context.Takes (c : Context) (stores : List (Nat × Value)) (c' : Context) : Prop
    extends c.SameFrames c' where
  slots : ∀ offset < c.localCount,
    c'.stack[c.fp + offset]? = (stores.lookup offset).or c.stack[c.fp + offset]?

section Taking

variable {c c' c'' : Context} {stores : List (Nat × Value)}

theorem Context.Keeps.takes (h : c.Keeps none c') : c.Takes [] c' where
  toSameFrames := h.sameFrames
  slots offset hoffset := h.same _ (by omega) (by omega) nofun

theorem Context.Takes.keeps (h : c.Takes stores c') (h' : c'.Keeps none c'') :
    c.Takes stores c'' where
  toSameFrames := h.toSameFrames.trans h'.sameFrames
  slots offset hoffset := by
    have hlater := h'.takes.slots offset (h.localCount ▸ hoffset)
    rw [h.fp] at hlater
    exact hlater.trans (h.slots offset hoffset)

/-- A value is stored at a place. -/
theorem Context.Takes.put {s : State} (h : c.Takes stores s.context) (place : Place) (v : Value) :
    c.Takes (place.slots v ++ stores) (s.put place v).context := by
  cases place with
  | global id => exact h
  | frame written =>
    have hfp := h.fp
    have hroom := h.room
    refine ⟨⟨h.fp, h.program, ?_, fun i hi => ?_⟩, fun offset hoffset => ?_⟩
    · show _ ≤ (Array.setIfInBounds _ _ _).size
      rw [Array.size_setIfInBounds]
      exact h.room
    · refine Eq.trans (Array.getElem?_setIfInBounds_ne (by omega)) (h.below i hi)
    · show (Array.setIfInBounds _ _ _)[_]? = (List.lookup offset ((written, v) :: stores)).or _
      rw [List.lookup_cons, hfp]
      by_cases heq : offset = written
      · subst heq
        rw [beq_self_eq_true]
        exact Array.getElem?_setIfInBounds_self_of_lt (by omega)
      · rw [beq_false_of_ne heq, Array.getElem?_setIfInBounds_ne (by omega)]
        exact h.slots offset hoffset

end Taking

section Parts

variable {s t : State} {id : SymbolId} {place : Place} {v : Value}

theorem Execution.write_eq_ok (h : Execution.write place v s = .ok () t) : t = s.put place v := by
  rcases Effects.write_cases place v s with heq | ⟨e, heq⟩
  · cases heq.symm.trans h
    rfl
  · cases heq.symm.trans h

theorem Execution.placeOf?_of_place? (h : Execution.place? id s = .ok (some place) t) :
    s.world.symbols.placeOf? id = some place := by
  obtain ⟨symbol, s', hsymbol, hrest⟩ := Execution.bind_eq_ok h
  obtain ⟨rfl, hget⟩ := Execution.symbol_eq_ok hsymbol
  cases hkind : symbol.kind with
  | frameLocal =>
    simp only [hkind] at hrest
    obtain ⟨offset, s', hoffset, hpure⟩ := Execution.bind_eq_ok hrest
    obtain ⟨rfl, hframe⟩ := Execution.ofExcept_eq_ok hoffset
    cases hpure
    exact SymbolTable.placeOf?_of_frameLocal hget hkind hframe
  | global =>
    simp only [hkind] at hrest
    cases hrest
    exact SymbolTable.placeOf?_of_global hget hkind
  | _ =>
    simp only [hkind] at hrest
    cases hrest

theorem Execution.placeOf?_of_iteratorPlace (h : Execution.iteratorPlace id s = .ok place t) :
    t = s ∧ s.world.symbols.placeOf? id = some place := by
  obtain ⟨symbol, s', hsymbol, hrest⟩ := Execution.bind_eq_ok h
  obtain ⟨rfl, hget⟩ := Execution.symbol_eq_ok hsymbol
  cases hkind : symbol.kind with
  | frameLocal =>
    simp only [hkind] at hrest
    obtain ⟨offset, s', hoffset, hpure⟩ := Execution.bind_eq_ok hrest
    obtain ⟨rfl, hframe⟩ := Execution.ofExcept_eq_ok hoffset
    cases hpure
    exact ⟨rfl, SymbolTable.placeOf?_of_frameLocal hget hkind hframe⟩
  | _ =>
    simp only [hkind] at hrest
    cases hrest

/-- What is read from a place is what it holds. -/
theorem Execution.contents?_of_read (h : Execution.read place s = .ok v t) :
    t = s ∧ s.contents? place = some v := by
  cases place with
  | frame offset =>
    obtain ⟨rfl, hvalue⟩ := Execution.view_eq_ok h
    refine ⟨rfl, ?_⟩
    unfold Context.localValue at hvalue
    show t.context.stack[t.context.fp + offset]? = some v
    cases hslot : t.context.stack[t.context.fp + offset]? with
    | none =>
      rw [hslot] at hvalue
      cases hvalue
    | some found =>
      rw [hslot] at hvalue
      cases hvalue
      rfl
  | global id =>
    obtain ⟨symbol, s', hsymbol, hpure⟩ := Execution.bind_eq_ok h
    obtain ⟨rfl, hget⟩ := Execution.symbol_eq_ok hsymbol
    cases hpure
    exact ⟨rfl, congrArg (Option.map Symbol.value) hget⟩

theorem Execution.fetchImmediate_eq_ok {n : Int64}
    (h : Execution.transition Context.fetchImmediate s = .ok n t) :
    s.context.pc.slot? = some (.immediate n) ∧
      t = { s with context := { s.context with pc := s.context.pc.advance 1 } } := by
  obtain ⟨c, hfetch, rfl⟩ := Execution.transition_eq_ok h
  rcases Context.fetchImmediate_cases s.context with ⟨m, hslot, heq⟩ | ⟨-, d, heq⟩
  · cases heq.symm.trans hfetch
    exact ⟨hslot, rfl⟩
  · cases heq.symm.trans hfetch

theorem Execution.withStore_eq_ok {α : Type} {f : Store → α × Store} {a : α}
    (h : Execution.withStore f s = .ok a t) :
    a = (f s.world.store).1 ∧ t = s.withStore (f s.world.store).2 := by
  cases h
  exact ⟨rfl, rfl⟩

theorem Execution.pop_eq_ok_withStack (h : Execution.pop s = .ok v t) :
    t = s.withStack s.context.stack.pop := by
  obtain ⟨w, c⟩ := s
  obtain ⟨c', hpop, rfl⟩ := Execution.transition_eq_ok h
  unfold Context.pop at hpop
  split at hpop
  · cases hpop
    rfl
  · cases hpop

theorem Execution.push_eq_ok (h : Execution.push v s = .ok () t) :
    t = s.withStack (s.context.stack.push v) := by
  obtain ⟨w, c⟩ := s
  obtain ⟨c', hpush, rfl⟩ := Execution.transition_eq_ok h
  unfold Context.push at hpush
  split at hpush
  · cases hpush
  · cases hpush
    rfl

/-- The array of a variable is the value that it has, or a new one that it gets. -/
theorem Execution.arrayOf_eq_ok {makeEmpty : Bool}
    (h : Execution.arrayOf id place makeEmpty s = .ok v t) :
    ∃ old, s.contents? place = some old ∧ (old.isUnset = false ∧ t = s ∨
      old = .unset ∧ makeEmpty = true ∧ t = (s.make .empty).put place (.array s.fresh)) := by
  obtain ⟨old, s₁, hread, h₁⟩ := Execution.bind_eq_ok h
  obtain ⟨rfl, hcontents⟩ := Execution.contents?_of_read hread
  refine ⟨old, hcontents, ?_⟩
  cases hunset : old.isUnset with
  | false =>
    rw [hunset] at h₁
    cases h₁
    exact .inl ⟨rfl, rfl⟩
  | true =>
    rw [hunset] at h₁
    cases old with
    | unset =>
      cases makeEmpty with
      | false => cases h₁
      | true =>
        obtain ⟨ref, s₂, halloc, h₂⟩ := Execution.bind_eq_ok h₁
        obtain ⟨rfl, rfl⟩ := Execution.withStore_eq_ok halloc
        obtain ⟨_, s₃, hwrite, hpure⟩ := Execution.bind_eq_ok h₂
        cases Execution.write_eq_ok hwrite
        cases hpure
        exact .inr ⟨rfl, rfl, rfl⟩
    | _ => cases hunset

/-- An iterator that is moved on. -/
theorem Execution.moved_of_advance {it : Iterator} {key : Option String}
    (h : Execution.advance place it s = .ok key t) :
    ∃ moved, it.next s.world.store = .ok (key, moved) ∧ t = s.put place (.iterator moved) := by
  obtain ⟨w, s₁, hworld, h₁⟩ := Execution.bind_eq_ok h
  cases hworld
  cases hnext : it.next s.world.store with
  | error lost =>
    simp only [hnext] at h₁
    cases h₁
  | ok answer =>
    obtain ⟨found, moved⟩ := answer
    simp only [hnext] at h₁
    obtain ⟨_, s₂, hwrite, hpure⟩ := Execution.bind_eq_ok h₁
    cases Execution.write_eq_ok hwrite
    cases hpure
    exact ⟨moved, rfl, rfl⟩

theorem State.store_put (s : State) (place : Place) (v : Value) :
    (s.put place v).world.store = s.world.store := by
  cases place with
  | frame offset => rfl
  | global id => rfl

/-- What a place holds does not change while an instruction fetches its operands. -/
theorem State.held?_of_contents {op : Opcode} {a : CodeAddress}
    (hplace : s.world.symbols.placeOf? id = some place)
    (h : State.contents? ⟨Execution.recorded op s, { s.context with pc := a }⟩ place = some v) :
    s.held? id = some v := by
  rw [State.held?, hplace]
  cases place with
  | frame offset => exact h
  | global other => exact h

theorem Context.OperandsAbove.room_of_one {c : Context} (h : c.OperandsAbove)
    (hdemand : c.demand = 1) : c.fp + c.localCount < c.stack.size := by
  unfold Context.OperandsAbove at h
  omega

theorem Context.keeps_pop {c : Context} (h : c.fp + c.localCount < c.stack.size) :
    c.Keeps none { c with stack := c.stack.pop } where
  fp := rfl
  program := rfl
  room := by
    rw [Array.size_pop]
    omega
  above := nofun
  same i hi _ _ := by
    rw [Array.getElem?_pop, if_pos (by omega)]

end Parts

section Storing

variable {host : Host} {nested : Runner} {s t : State} {outcome : Outcome}

/-- An assignment. -/
theorem State.takes_of_assign (hlaid : s.context.WellLaid) (habove : s.context.OperandsAbove)
    (hop : s.context.pc.slot? = some (.op .assign))
    (hstep : Execution.step host nested s = .ok outcome t) :
    s.context.Takes s.stores t.context := by
  have hroom := habove.room_of_one (Effects.demand_eq hop)
  rw [Execution.step_of_opcode hop] at hstep
  obtain ⟨id, s₁, hfetch, h₁⟩ := Execution.bind_eq_ok hstep
  obtain ⟨hname, rfl⟩ := Execution.fetchSymbol_eq_ok hfetch
  obtain ⟨place, s₂, hplace, h₂⟩ := Execution.bind_eq_ok h₁
  cases Execution.place?_eq_ok hplace
  cases place with
  | none =>
    obtain ⟨_, _, -, hraise⟩ := Execution.bind_eq_ok h₂
    cases hraise
  | some place =>
    have hfound := Execution.placeOf?_of_place? hplace
    have hplace : s.world.symbols.placeOf? id = some place := hfound
    obtain ⟨v, s₃, hpop, h₃⟩ := Execution.bind_eq_ok h₂
    have hback : s.context.stack.back? = some v := (Execution.pop_eq_ok hpop).1
    cases Execution.pop_eq_ok_withStack hpop
    obtain ⟨copied, s₄, hcopy, h₄⟩ := Execution.bind_eq_ok h₃
    obtain ⟨rfl, rfl⟩ := Execution.withStore_eq_ok hcopy
    obtain ⟨_, s₅, hwrite, hend⟩ := Execution.bind_eq_ok h₄
    cases Execution.write_eq_ok hwrite
    cases hend
    have hwrites : s.writes = [(id, (s.world.store.copyForAssignment v).1)] := by
      rw [State.writes_eq hop hname, State.writesOf, hback]
      rfl
    rw [State.stores, hwrites, List.flatMap_cons, SymbolTable.slots_of_place hplace]
    refine Context.Takes.put ?_ place _
    exact (hlaid.jump (s.context.pc.index + 2)).takes.keeps (Context.keeps_pop hroom)

/-- A loop begins. -/
theorem State.takes_of_beginIteration (hlaid : s.context.WellLaid)
    (habove : s.context.OperandsAbove) (hop : s.context.pc.slot? = some (.op .beginIteration))
    (hstep : Execution.step host nested s = .ok outcome t) :
    s.context.Takes s.stores t.context := by
  have hroom := habove.room_of_one (Effects.demand_eq hop)
  rw [Execution.step_of_opcode hop] at hstep
  obtain ⟨id, s₁, hfetch, h₁⟩ := Execution.bind_eq_ok hstep
  obtain ⟨hname, rfl⟩ := Execution.fetchSymbol_eq_ok hfetch
  obtain ⟨place, s₂, hplace, h₂⟩ := Execution.bind_eq_ok h₁
  obtain ⟨rfl, hfound⟩ := Execution.placeOf?_of_iteratorPlace hplace
  have hplace : s.world.symbols.placeOf? id = some place := hfound
  obtain ⟨ref, s₃, hpopArray, h₃⟩ := Execution.bind_eq_ok h₂
  obtain ⟨v, s₄, hpop, hcontainer⟩ := Execution.bind_eq_ok hpopArray
  have hback : s.context.stack.back? = some v := (Execution.pop_eq_ok hpop).1
  cases Execution.pop_eq_ok_withStack hpop
  cases v with
  | array ref =>
    cases hcontainer
    obtain ⟨w, s₅, hworld, h₄⟩ := Execution.bind_eq_ok h₃
    cases hworld
    obtain ⟨_, s₆, hwrite, hend⟩ := Execution.bind_eq_ok h₄
    cases Execution.write_eq_ok hwrite
    cases hend
    have hwrites : s.writes = [(id, .iterator (s.world.store.iterate ref))] := by
      rw [State.writes_eq hop hname]
      simp only [State.writesOf, hback]
    rw [State.stores, hwrites, List.flatMap_cons, SymbolTable.slots_of_place hplace]
    refine Context.Takes.put ?_ place _
    exact (hlaid.jump (s.context.pc.index + 2)).takes.keeps (Context.keeps_pop hroom)
  | _ => cases hcontainer

/-- A variable is looked up as an array, and gets an empty one if it has no value. -/
theorem State.takes_of_pushArray (hlaid : s.context.WellLaid)
    (hop : s.context.pc.slot? = some (.op .pushArray))
    (hstep : Execution.step host nested s = .ok outcome t) :
    s.context.Takes s.stores t.context := by
  have hfetched : s.context.Takes [] { s.context with pc := s.context.pc.advance 3 } :=
    (hlaid.jump (s.context.pc.index + 3)).takes
  rw [Execution.step_of_opcode hop] at hstep
  obtain ⟨id, s₁, hfetch, h₁⟩ := Execution.bind_eq_ok hstep
  obtain ⟨hname, rfl⟩ := Execution.fetchSymbol_eq_ok hfetch
  obtain ⟨flag, s₂, himmediate, h₂⟩ := Execution.bind_eq_ok h₁
  obtain ⟨hfound, rfl⟩ := Execution.fetchImmediate_eq_ok himmediate
  have hflag : (s.context.pc.advance 2).slot? = some (.immediate flag) := hfound
  obtain ⟨place, s₃, hplace, h₃⟩ := Execution.bind_eq_ok h₂
  cases Execution.place?_eq_ok hplace
  cases place with
  | none =>
    obtain ⟨_, _, -, hraise⟩ := Execution.bind_eq_ok h₃
    cases hraise
  | some place =>
    have hfound := Execution.placeOf?_of_place? hplace
    have hplace : s.world.symbols.placeOf? id = some place := hfound
    obtain ⟨array, s₄, harray, h₄⟩ := Execution.bind_eq_ok h₃
    obtain ⟨_, s₅, hpush, hend⟩ := Execution.bind_eq_ok h₄
    cases Execution.push_eq_ok hpush
    cases hend
    obtain ⟨v, hcontents, hrest⟩ := Execution.arrayOf_eq_ok harray
    have hheld := State.held?_of_contents hplace hcontents
    have htakes : s.context.Takes s.stores s₄.context := by
      rw [State.stores, State.writes_eq hop hname]
      rcases hrest with ⟨hset, rfl⟩ | ⟨rfl, hmakes, rfl⟩
      · have hnone : s.writesOf .pushArray id = [] := by
          cases v with
          | unset => cases hset
          | _ => simp only [State.writesOf, hflag, hheld]
        rw [hnone]
        exact hfetched
      · have hmade : s.writesOf .pushArray id = [(id, .array s.fresh)] := by
          simp only [State.writesOf, hflag, hheld, if_neg (bne_iff_ne.1 hmakes)]
        rw [hmade, List.flatMap_cons, SymbolTable.slots_of_place hplace]
        exact Context.Takes.put hfetched place _
    exact htakes.keeps ((htakes.wellLaid hlaid).push array)

/-- A turn of a loop. -/
theorem State.takes_of_iterate (hlaid : s.context.WellLaid)
    (hop : s.context.pc.slot? = some (.op .iterate))
    (hstep : Execution.step host nested s = .ok outcome t) :
    s.context.Takes s.stores t.context := by
  have hfetched : s.context.Takes [] (State.context ⟨Execution.recorded .iterate s,
      { s.context with pc := s.context.pc.advance 4 }⟩) :=
    (hlaid.jump (s.context.pc.index + 4)).takes
  rw [Execution.step_of_opcode hop] at hstep
  obtain ⟨itemId, s₁, hfetch, h₁⟩ := Execution.bind_eq_ok hstep
  obtain ⟨hname, rfl⟩ := Execution.fetchSymbol_eq_ok hfetch
  obtain ⟨iteratorId, s₂, hfetch', h₂⟩ := Execution.bind_eq_ok h₁
  obtain ⟨hsecond, rfl⟩ := Execution.fetchSymbol_eq_ok hfetch'
  have hsecond : (s.context.pc.advance 2).slot? = some (.symbol iteratorId) := hsecond
  obtain ⟨exit, s₃, hexit, h₃⟩ := Execution.bind_eq_ok h₂
  cases Execution.fetchBranch_eq_ok hexit
  obtain ⟨item, s₄, hitem, h₄⟩ := Execution.bind_eq_ok h₃
  cases Execution.place?_eq_ok hitem
  cases item with
  | none =>
    obtain ⟨_, _, -, hraise⟩ := Execution.bind_eq_ok h₄
    cases hraise
  | some item =>
    have hfound := Execution.placeOf?_of_place? hitem
    have hitem : s.world.symbols.placeOf? itemId = some item := hfound
    obtain ⟨place, s₅, hplace, h₅⟩ := Execution.bind_eq_ok h₄
    obtain ⟨rfl, hfound⟩ := Execution.placeOf?_of_iteratorPlace hplace
    have hplace : s.world.symbols.placeOf? iteratorId = some place := hfound
    obtain ⟨v, s₆, hread, h₆⟩ := Execution.bind_eq_ok h₅
    obtain ⟨rfl, hcontents⟩ := Execution.contents?_of_read hread
    cases v with
    | iterator it =>
      have hheld := State.held?_of_contents hplace hcontents
      obtain ⟨_, s₇, hclear, h₇⟩ := Execution.bind_eq_ok h₆
      cases Execution.write_eq_ok hclear
      obtain ⟨key, s₈, hadvance, h₈⟩ := Execution.bind_eq_ok h₇
      obtain ⟨moved, hnext, rfl⟩ := Execution.moved_of_advance hadvance
      rw [State.store_put] at hnext
      have hnext : it.next s.world.store = .ok (key, moved) := hnext
      obtain ⟨_, s₉, hbind, hend⟩ := Execution.bind_eq_ok h₈
      cases hend
      have hturned := (hfetched.put item .unset).put place (.iterator moved)
      rw [List.append_nil] at hturned
      rw [State.stores, State.writes_eq hop hname]
      simp only [State.writesOf, hsecond, State.turnWrites, hheld, hnext, List.flatMap_append,
        List.flatMap_cons, List.flatMap_nil, List.append_nil, SymbolTable.slots_of_place hplace,
        SymbolTable.slots_of_place hitem]
      cases key with
      | some key =>
        cases Execution.write_eq_ok hbind
        simp only [Option.toList, List.map_cons, List.map_nil, List.flatMap_cons, List.flatMap_nil,
          SymbolTable.slots_of_place hitem, List.append_nil]
        exact hturned.put item (.text key)
      | none =>
        cases hbind
        exact hturned.keeps ((hturned.wellLaid hlaid).jump exit)
    | _ =>
      obtain ⟨_, _, -, hraise⟩ := Execution.bind_eq_ok h₆
      cases hraise

/-- Nothing else writes to local variables. -/
theorem During.takes_nil {s₀ : State} (h : During s₀ s) (hlaid : s₀.context.WellLaid)
    (habove : s₀.context.OperandsAbove) (hnames : ∀ offset, ¬ s₀.Names (.frame offset)) :
    s₀.context.Takes [] s.context := by
  induction h with
  | popped hs => exact (hs.keeps habove).takes
  | jump target _ ih => exact ih.keeps ((ih.wellLaid hlaid).jump target)
  | push v _ _ ih => exact ih.keeps ((ih.wellLaid hlaid).push v)
  | make e _ ih => exact ih
  | @store s place v _ hplace _ ih =>
    cases place with
    | frame offset => exact absurd hplace (hnames offset)
    | global id => exact ih
  | @storeNew s place e _ hplace ih =>
    cases place with
    | frame offset => exact absurd hplace (hnames offset)
    | global id => exact ih
  | cache e _ _ ih => exact ih.keeps ((ih.wellLaid hlaid).cache _)
  | alter _ _ ih => exact ih

/-- Variables of frames cannot be called. -/
theorem State.not_frameLocal_of_call {id : SymbolId} {symbol : Symbol}
    (hop : s.context.pc.slot? = some (.op .call))
    (hname : (s.context.pc.advance 1).slot? = some (.symbol id))
    (hget : s.world.symbols.get? id = some symbol)
    (hstep : Execution.step host nested s = .ok outcome t) : symbol.kind ≠ .frameLocal := by
  intro hkind
  rw [Execution.step_of_opcode hop] at hstep
  obtain ⟨found, s₁, hfetch, h₁⟩ := Execution.bind_eq_ok hstep
  obtain ⟨hfound, rfl⟩ := Execution.fetchSymbol_eq_ok hfetch
  cases hname.symm.trans hfound
  obtain ⟨count, s₂, hcount, h₂⟩ := Execution.bind_eq_ok h₁
  obtain ⟨n, -, -, rfl⟩ := Execution.fetchCount_eq_ok hcount
  obtain ⟨symbol', s₃, hsymbol, h₃⟩ := Execution.bind_eq_ok h₂
  obtain ⟨rfl, hget'⟩ := Execution.symbol_eq_ok hsymbol
  cases hget.symm.trans hget'
  simp only [hkind] at h₃
  cases h₃

/-- What an instruction that stays in its frame makes of the local variables there.  Reads of
symbols are left out, since they may run routines. -/
theorem State.takes_of_stays (hlaid : s.context.WellLaid) (habove : s.context.OperandsAbove)
    (hread : ¬ s.context.nextIs .pushSymbol) (hduring : During s t)
    (hstep : Execution.step host nested s = .ok outcome t) :
    s.context.Takes s.stores t.context := by
  by_cases hnames : ∀ offset, ¬ s.Names (.frame offset)
  · rw [State.stores_eq_nil hnames]
    exact hduring.takes_nil hlaid habove hnames
  · obtain ⟨offset, hnames⟩ := Classical.not_forall_not.1 hnames
    cases hnames with
    | @frame id symbol _ hoperand hget hkind hoffset =>
      obtain ⟨op, i, hop, hrole, hslot⟩ := hoperand
      rcases Opcode.symbol_role hrole with ⟨rfl, hops⟩ | ⟨-, rfl⟩
      · rcases hops with rfl | rfl | rfl | rfl | rfl | rfl
        · exact absurd (Effects.nextIs_iff.2 hop) hread
        · exact State.takes_of_assign hlaid habove hop hstep
        · exact absurd hkind (State.not_frameLocal_of_call hop hslot hget hstep)
        · exact State.takes_of_pushArray hlaid hop hstep
        · exact State.takes_of_beginIteration hlaid habove hop hstep
        · exact State.takes_of_iterate hlaid hop hstep
      · exact State.takes_of_iterate hlaid hop hstep

end Storing

end MacroMachine
