import Mathlib.Logic.Function.Basic
import MacroMachine.Proofs.Branches
import MacroMachine.Proofs.Budget
import MacroMachine.Proofs.LocalLayout
import MacroMachine.Proofs.Operands
import MacroMachine.Proofs.StackBound

/-!
# Runs within a frame

A piece of code that calls nothing stays in its frame, and all that matters about a state on its way
is where it stands in the code, what the local variables hold, what operands lie above them, and the
store.  This module follows a macro by these four.

*Standing.*  `State.Stands` says the four about a state.  For each instruction that the code of a
loop is made of there is a lemma that leads from one such description to the next.

*Tours.*  Some instructions one after the other are a tour, which keeps what an observer sees at the
states on its way (`Host.Tour`).  A tour that ends with the macro does so however the macro is cut
into slices (`Host.Tour.comesTo`).
-/

namespace MacroMachine

/-! ## Tours -/

namespace Host

/-- One instruction that goes on with the macro, whatever runs the macros of routines. -/
def Moves (host : Host) (s t : State) : Prop :=
  ∀ nested, Execution.step host nested s = .ok .next t

theorem Proceeds.move {host : Host} {m : Nat} {s t u : State} (hmoves : host.Moves s t)
    (h : host.Proceeds m t u) : host.Proceeds (m + 1) s u :=
  .step ⟨0, hmoves _⟩ h

/-- Some instructions one after the other, with what `look` shows of the states before them. -/
inductive Tour {α : Type} (host : Host) (look : State → Option α) :
    State → List α → State → Prop where
  | stay (s : State) : Tour host look s [] s
  | move {s t u : State} {seen : List α} : host.Moves s t → Tour host look t seen u →
      Tour host look s ((look s).toList ++ seen) u

/-- A macro that is resumed whenever it is suspended comes to an end, given bounds on the number of
instructions and of slices that are large enough. -/
def ComesTo (host : Host) (s : State) (status : Status) (world : World) : Prop :=
  ∃ enough, ∀ fuel fuel' slices executed, enough ≤ fuel → enough ≤ fuel' → enough ≤ slices →
    ∃ status₁ world₁ n, host.runSlice fuel executed s.world s.context = some (status₁, world₁) ∧
      host.resumeWhile fuel' slices status₁ world₁ = some (status, n, world)

section Tours

variable {α : Type} {host : Host} {look : State → Option α} {s t u : State} {seen seen' : List α}
  {status : Status} {world : World}

theorem Tour.trans (h : host.Tour look s seen t) (h' : host.Tour look t seen' u) :
    host.Tour look s (seen ++ seen') u := by
  induction h with
  | stay s => exact h'
  | move hmoves _ ih =>
    rw [List.append_assoc]
    exact .move hmoves (ih h')

/-- One instruction at which there is nothing to see. -/
theorem Tour.unseen (hlook : look s = none) (hmoves : host.Moves s t)
    (h : host.Tour look t seen u) : host.Tour look s seen u := by
  have htour := Tour.move hmoves h
  rwa [hlook] at htour

/-- The macro is over with its next instruction. -/
theorem comesTo_of_ending
    (h : ∀ nested, Execution.ending? (Execution.step host nested s) = some (status, world)) :
    host.ComesTo s status world := by
  refine ⟨1, fun fuel fuel' slices executed hfuel _ _ => ?_⟩
  obtain ⟨fuel, rfl⟩ : ∃ n, fuel = n + 1 := ⟨fuel - 1, by omega⟩
  have hend := h (host.runSlice fuel 0)
  exact ⟨status, world, 0, runSlice_ending hend executed,
    host.resumeWhile_of_final (Execution.ending?_final hend) fuel' slices world⟩

/-- One more instruction before it.  If the slice is over after it, a new one is begun. -/
theorem ComesTo.move (hmoves : host.Moves s t) (h : host.ComesTo t status world) :
    host.ComesTo s status world := by
  obtain ⟨enough, henough⟩ := h
  refine ⟨enough + 1, fun fuel fuel' slices executed hfuel hfuel' hslices => ?_⟩
  obtain ⟨fuel, rfl⟩ : ∃ n, fuel = n + 1 := ⟨fuel - 1, by omega⟩
  obtain ⟨slices, rfl⟩ : ∃ n, slices = n + 1 := ⟨slices - 1, by omega⟩
  have hstep := hmoves (host.runSlice fuel 0)
  simp only [runSlice, hstep]
  by_cases hover : host.sliceOver (executed + 1)
  · obtain ⟨status₁, world₁, n, hslice, hrest⟩ :=
      henough fuel' fuel' slices 0 (by omega) (by omega) (by omega)
    refine ⟨_, _, n + 1, if_pos hover, ?_⟩
    simp only [resumeWhile, resume, hslice, hrest, Option.map_some]
  · obtain ⟨status₁, world₁, n, hslice, hrest⟩ :=
      henough fuel fuel' (slices + 1) (executed + 1) (by omega) (by omega) (by omega)
    exact ⟨status₁, world₁, n, by rw [if_neg hover]; exact hslice, hrest⟩

theorem Tour.comesTo (h : host.Tour look s seen t) (hend : host.ComesTo t status world) :
    host.ComesTo s status world := by
  induction h with
  | stay s => exact hend
  | move hmoves _ ih => exact (ih hend).move hmoves

end Tours

end Host

/-! ## Where a macro stands in its frame -/

/-- The stack up to the frame is as at home, and the local variables have these values. -/
structure State.Frames (home : State) (locals : Nat → Value) (base : Array Value) : Prop where
  size : base.size = home.context.stack.size
  below : ∀ i, i < home.context.fp → base[i]? = home.context.stack[i]?
  locals : ∀ o, o < home.context.pc.program.program.locals.length →
    base[home.context.fp + o]? = some (locals o)

/-- The symbol is the variable at this place of the frame. -/
structure State.HasLocal (s : State) (id : SymbolId) (o : Nat) : Prop where
  places : s.world.symbols.Places id o
  lt : o < s.context.pc.program.program.locals.length

/-- The macro of a state, elsewhere in its code and with another stack and store. -/
def State.moved (home : State) (position : Nat) (stack : Array Value) (store : Store)
    (dispatches : Array Dispatch) : State :=
  ⟨{ home.world with store, dispatches },
    { home.context with stack, pc := home.context.pc.jump position }⟩

/-- The macro of a state is still in its frame: it stands somewhere in the code, its local variables
have these values, and these operands lie above the frame as it was. -/
inductive State.Stands (home : State) (position : Nat) (locals : Nat → Value)
    (operands : List Value) (store : Store) : State → Prop where
  | intro {base : Array Value} (dispatches : Array Dispatch) : home.Frames locals base →
      base.size + operands.length ≤ home.context.limit →
      Stands home position locals operands store
        (home.moved position (base ++ operands.toArray) store dispatches)

section Standing

variable {home s : State} {o : Nat} {locals : Nat → Value} {base : Array Value}

/-- A local variable gets a value. -/
theorem State.Frames.set (h : home.Frames locals base)
    (ho : o < home.context.pc.program.program.locals.length) (v : Value) :
    home.Frames (Function.update locals o v) (base.setIfInBounds (home.context.fp + o) v) where
  size := by
    rw [Array.size_setIfInBounds]
    exact h.size
  below i hi := by
    rw [Array.getElem?_setIfInBounds_ne (by omega)]
    exact h.below i hi
  locals o' ho' := by
    by_cases heq : o' = o
    · subst heq
      have hlt := (Array.getElem?_eq_some_iff.1 (h.locals o' ho)).1
      rw [Array.getElem?_setIfInBounds_self_of_lt hlt, Function.update_self]
    · rw [Array.getElem?_setIfInBounds_ne (by omega), Function.update_of_ne heq]
      exact h.locals o' ho'

theorem State.Frames.lt (h : home.Frames locals base)
    (ho : o < home.context.pc.program.program.locals.length) : home.context.fp + o < base.size :=
  (Array.getElem?_eq_some_iff.1 (h.locals o ho)).1

/-- Before the first instruction a macro stands where it is. -/
theorem State.stands_self (hlimit : s.context.stack.size ≤ s.context.limit)
    (hlocals : ∀ o, o < s.context.pc.program.program.locals.length →
      s.context.stack[s.context.fp + o]? = some (locals o)) :
    s.Stands s.context.pc.index locals [] s.world.store s := by
  have hframes : s.Frames locals s.context.stack := ⟨rfl, fun _ _ => rfl, hlocals⟩
  have hself : s.Stands s.context.pc.index locals [] s.world.store
      (s.moved s.context.pc.index (s.context.stack ++ #[]) s.world.store s.world.dispatches) :=
    .intro _ hframes hlimit
  rwa [Array.append_empty] at hself

end Standing

/-! ## Parts of instructions -/

namespace State

variable {host : Host} {home : State} {position o : Nat} {locals : Nat → Value}
  {operands : List Value} {stack base : Array Value} {store : Store} {dispatches : Array Dispatch}
  {id : SymbolId} {v : Value}

theorem fetchSymbol_moved (h : (home.context.pc.jump position).slot? = some (.symbol id)) :
    Execution.transition Context.fetchSymbol (home.moved position stack store dispatches) =
      .ok id (home.moved (position + 1) stack store dispatches) := by
  refine Execution.transition_of_ok ?_
  simp only [Context.fetchSymbol, h]
  rfl

theorem fetchImmediate_moved {n : Int64}
    (h : (home.context.pc.jump position).slot? = some (.immediate n)) :
    Execution.transition Context.fetchImmediate (home.moved position stack store dispatches) =
      .ok n (home.moved (position + 1) stack store dispatches) :=
  Execution.transition_of_ok (Context.fetchImmediate_of_slot h)

theorem fetchBranch_moved {target : Nat}
    (h : home.context.pc.program.program.BranchesTo position target)
    (htarget : target ≤ home.context.pc.program.program.size) :
    Execution.transition Context.fetchBranch (home.moved position stack store dispatches) =
      .ok target (home.moved (position + 1) stack store dispatches) := by
  have hfetch := h.fetched (home.moved position stack store dispatches).context rfl rfl
  rw [if_pos htarget] at hfetch
  exact Execution.transition_of_ok hfetch

theorem pop_moved :
    Execution.pop (home.moved position (base ++ (operands ++ [v]).toArray) store dispatches) =
      .ok v (home.moved position (base ++ operands.toArray) store dispatches) :=
  Execution.transition_of_ok (Context.pop_of_stack (by simp))

theorem push_moved (v : Value) (h : base.size + operands.length < home.context.limit) :
    Execution.push v (home.moved position (base ++ operands.toArray) store dispatches) =
      .ok () (home.moved position (base ++ (operands ++ [v]).toArray) store dispatches) := by
  have hstack : (base ++ operands.toArray).push v = base ++ (operands ++ [v]).toArray := by simp
  rw [← hstack]
  exact Execution.transition_of_ok (Context.push_of_room v (by simpa [moved] using h))

theorem withStore_moved {α : Type} {g : Store → α × Store} {a : α} {after : Store}
    (h : g store = (a, after)) :
    Execution.withStore g (home.moved position stack store dispatches) =
      .ok a (home.moved position stack after dispatches) := by
  simp only [Execution.withStore, moved, h]

/-- The symbols stay as they are. -/
theorem symbol_moved {symbol : Symbol} (h : home.world.symbols.get? id = some symbol) :
    Execution.symbol id (home.moved position stack store dispatches) =
      .ok symbol (home.moved position stack store dispatches) := by
  simp only [Execution.symbol, moved, h]

/-- A variable of the frame lives at its place. -/
theorem HasLocal.place? (h : home.HasLocal id o) :
    Execution.place? id (home.moved position stack store dispatches) =
      .ok (some (.frame o)) (home.moved position stack store dispatches) := by
  obtain ⟨⟨name, kind, value⟩, hget, rfl, hoffset⟩ := h.places
  refine (Execution.bind_of_ok (symbol_moved hget)).trans ?_
  simp only [hoffset]
  rfl

theorem HasLocal.iteratorPlace (h : home.HasLocal id o) :
    Execution.iteratorPlace id (home.moved position stack store dispatches) =
      .ok (.frame o) (home.moved position stack store dispatches) := by
  obtain ⟨⟨name, kind, value⟩, hget, rfl, hoffset⟩ := h.places
  refine (Execution.bind_of_ok (symbol_moved hget)).trans ?_
  simp only [hoffset]
  rfl

/-- The values of local variables do not depend on the operands above them. -/
theorem Frames.localValue (h : home.Frames locals base)
    (ho : o < home.context.pc.program.program.locals.length) :
    (home.moved position (base ++ operands.toArray) store dispatches).context.localValue o =
      .ok (locals o) := by
  simp only [Context.localValue, moved, Array.getElem?_append_left (h.lt ho), h.locals o ho]

theorem Frames.read (h : home.Frames locals base)
    (ho : o < home.context.pc.program.program.locals.length) :
    Execution.read (.frame o) (home.moved position (base ++ operands.toArray) store dispatches) =
      .ok (locals o) (home.moved position (base ++ operands.toArray) store dispatches) := by
  simp only [Execution.read, Execution.view, h.localValue ho]

theorem Frames.write (h : home.Frames locals base)
    (ho : o < home.context.pc.program.program.locals.length) (v : Value) :
    Execution.write (.frame o) v
        (home.moved position (base ++ operands.toArray) store dispatches) =
      .ok () (home.moved position
        (base.setIfInBounds (home.context.fp + o) v ++ operands.toArray) store dispatches) := by
  have hlt := h.lt ho
  have hin : home.context.fp + o < (base ++ operands.toArray).size := by
    rw [Array.size_append]
    omega
  refine Execution.transition_of_ok ?_
  simp only [Context.setLocal, if_pos hin, Array.setIfInBounds_append_left hlt]

/-- An iterator that does not refuse is moved on. -/
theorem advance_moved {place : Place} {it it' : Iterator} {key? : Option String} {t : State}
    (hnext : it.next store = .ok (key?, it'))
    (hwrite : Execution.write place (.iterator it') (home.moved position stack store dispatches) =
      .ok () t) :
    Execution.advance place it (home.moved position stack store dispatches) = .ok key? t := by
  let here := home.moved position stack store dispatches
  have hworld : Execution.world here = .ok here.world here := rfl
  have hmatch : it.next here.world.store = .ok (key?, it') := hnext
  refine (Execution.bind_of_ok hworld).trans ?_
  rw [hmatch]
  exact Execution.bind_of_ok hwrite

end State

/-! ## Instructions -/

namespace State.Stands

variable (host : Host) {home s : State} {position o : Nat} {locals : Nat → Value}
  {operands : List Value} {store : Store} {id : SymbolId} {v : Value}

theorem pc (h : home.Stands position locals operands store s) :
    s.context.pc = home.context.pc.jump position := by
  obtain ⟨dispatches, -, -⟩ := h
  rfl

theorem store_eq (h : home.Stands position locals operands store s) : s.world.store = store := by
  obtain ⟨dispatches, -, -⟩ := h
  rfl

theorem localValue (h : home.Stands position locals operands store s)
    (ho : o < home.context.pc.program.program.locals.length) :
    s.context.localValue o = .ok (locals o) := by
  obtain ⟨dispatches, hframes, -⟩ := h
  exact hframes.localValue ho

/-- An instruction leads to another place in the frame if carrying it out does. -/
theorem of_carryOut (op : Opcode) {position' : Nat} {locals' : Nat → Value}
    {operands' : List Value} {store' : Store} (h : home.Stands position locals operands store s)
    (hslot : (home.context.pc.jump position).slot? = some (.op op))
    (hfits : home.context.stack.size + operands'.length ≤ home.context.limit)
    (hop : ∀ base : Array Value, home.Frames locals base → ∃ base', home.Frames locals' base' ∧
      ∀ invoke dispatches, Execution.carryOut invoke op
          (home.moved (position + 1) (base ++ operands.toArray) store dispatches) =
        .ok .next (home.moved position' (base' ++ operands'.toArray) store' dispatches)) :
    ∃ t, host.Moves s t ∧ home.Stands position' locals' operands' store' t := by
  obtain @⟨base, dispatches, hframes, -⟩ := h
  obtain ⟨base', hframes', hcarry⟩ := hop base hframes
  exact ⟨_, fun nested => (Execution.step_of_opcode hslot).trans (hcarry _ _),
    .intro _ hframes' (hframes'.size ▸ hfits)⟩

/-- The value of a symbol is put on the stack. -/
theorem pushValue (h : home.Stands position locals operands store s)
    (hcode : (home.context.pc.jump position).Holds [.op .pushSymbol, .symbol id])
    (hvalue : ∀ (invoke : Execution.Caller) (t : State),
      home.Stands (position + 2) locals operands store t →
        Execution.symbolValue invoke id t = .ok v t)
    (hset : v.isUnset = false)
    (hroom : home.context.stack.size + (operands.length + 1) ≤ home.context.limit) :
    ∃ t, host.Moves s t ∧ home.Stands (position + 2) locals (operands ++ [v]) store t := by
  refine h.of_carryOut host .pushSymbol hcode.1 (by simpa using hroom) fun base hframes =>
    ⟨base, hframes, fun invoke dispatches => ?_⟩
  rw [← hframes.size] at hroom
  refine (Execution.bind_of_ok (fetchSymbol_moved hcode.2.1)).trans ?_
  refine (Execution.bind_of_ok (hvalue invoke _
    (.intro dispatches hframes (Nat.le_of_lt hroom)))).trans ?_
  rw [hset]
  exact Execution.bind_of_ok (push_moved v hroom)

/-- A local variable that has a value is put on the stack. -/
theorem pushLocal (h : home.Stands position locals operands store s)
    (hcode : (home.context.pc.jump position).Holds [.op .pushSymbol, .symbol id])
    (hid : home.HasLocal id o) (hset : (locals o).isUnset = false)
    (hroom : home.context.stack.size + (operands.length + 1) ≤ home.context.limit) :
    ∃ t, host.Moves s t ∧
      home.Stands (position + 2) locals (operands ++ [locals o]) store t := by
  refine h.pushValue host hcode (fun invoke t ht => ?_) hset hroom
  obtain ⟨dispatches, hframes, -⟩ := ht
  obtain ⟨⟨name, kind, value⟩, hget, rfl, hoffset⟩ := hid.places
  refine (Execution.bind_of_ok (symbol_moved hget)).trans ?_
  simp only [hoffset]
  exact hframes.read hid.lt

/-- A constant is put on the stack. -/
theorem pushConstant {name : String} (h : home.Stands position locals operands store s)
    (hcode : (home.context.pc.jump position).Holds [.op .pushSymbol, .symbol id])
    (hid : home.world.symbols.get? id = some ⟨name, .constant, v⟩) (hset : v.isUnset = false)
    (hroom : home.context.stack.size + (operands.length + 1) ≤ home.context.limit) :
    ∃ t, host.Moves s t ∧ home.Stands (position + 2) locals (operands ++ [v]) store t := by
  refine h.pushValue host hcode (fun invoke t ht => ?_) hset hroom
  obtain ⟨dispatches, -, -⟩ := ht
  exact Execution.bind_of_ok (symbol_moved hid)

/-- A value that is no array is stored in a local variable. -/
theorem assignLocal (operands : List Value)
    (h : home.Stands position locals (operands ++ [v]) store s)
    (hcode : (home.context.pc.jump position).Holds [.op .assign, .symbol id])
    (hid : home.HasLocal id o) (hv : v.isArray = false)
    (hroom : home.context.stack.size + operands.length ≤ home.context.limit) :
    ∃ t, host.Moves s t ∧
      home.Stands (position + 2) (Function.update locals o v) operands store t := by
  have hcopy : store.copyForAssignment v = (v, store) := by
    cases v with
    | array ref => cases hv
    | _ => rfl
  refine h.of_carryOut host .assign hcode.1 hroom fun base hframes =>
    ⟨_, hframes.set hid.lt v, fun invoke dispatches => ?_⟩
  refine (Execution.bind_of_ok (fetchSymbol_moved hcode.2.1)).trans ?_
  refine (Execution.bind_of_ok hid.place?).trans ?_
  refine (Execution.bind_of_ok pop_moved).trans ?_
  refine (Execution.bind_of_ok (withStore_moved hcopy)).trans ?_
  exact Execution.bind_of_ok (hframes.write hid.lt v)

/-- The array of a local variable is put on the stack. -/
theorem pushArray {flag : Int64} {ref : ArrayRef}
    (h : home.Stands position locals operands store s)
    (hcode : (home.context.pc.jump position).Holds
      [.op .pushArray, .symbol id, .immediate flag])
    (hid : home.HasLocal id o) (hvalue : locals o = .array ref)
    (hroom : home.context.stack.size + (operands.length + 1) ≤ home.context.limit) :
    ∃ t, host.Moves s t ∧
      home.Stands (position + 3) locals (operands ++ [.array ref]) store t := by
  refine h.of_carryOut host .pushArray hcode.1 (by simpa using hroom) fun base hframes =>
    ⟨base, hframes, fun invoke dispatches => ?_⟩
  rw [← hframes.size] at hroom
  refine (Execution.bind_of_ok (fetchSymbol_moved hcode.2.1)).trans ?_
  refine (Execution.bind_of_ok (fetchImmediate_moved hcode.2.2.1)).trans ?_
  refine (Execution.bind_of_ok hid.place?).trans ?_
  have harray : Execution.arrayOf id (.frame o) (flag != 0)
      (home.moved (position + 3) (base ++ operands.toArray) store dispatches) =
        .ok (.array ref)
          (home.moved (position + 3) (base ++ operands.toArray) store dispatches) := by
    refine (Execution.bind_of_ok (hframes.read hid.lt)).trans ?_
    rw [hvalue]
    rfl
  refine (Execution.bind_of_ok harray).trans ?_
  exact Execution.bind_of_ok (push_moved _ hroom)

/-- A local variable without a value gets a new array, which is put on the stack. -/
theorem makeArray {flag : Int64} (h : home.Stands position locals operands store s)
    (hcode : (home.context.pc.jump position).Holds
      [.op .pushArray, .symbol id, .immediate flag])
    (hid : home.HasLocal id o) (hvalue : locals o = .unset) (hflag : (flag != 0) = true)
    (hroom : home.context.stack.size + (operands.length + 1) ≤ home.context.limit) :
    ∃ t, host.Moves s t ∧ home.Stands (position + 3)
      (Function.update locals o (.array (store.alloc .empty).1))
      (operands ++ [.array (store.alloc .empty).1]) (store.alloc .empty).2 t := by
  refine h.of_carryOut host .pushArray hcode.1 (by simpa using hroom) fun base hframes => ?_
  have hset := hframes.set hid.lt (.array (store.alloc .empty).1)
  rw [← hset.size] at hroom
  refine ⟨_, hset, fun invoke dispatches => ?_⟩
  refine (Execution.bind_of_ok (fetchSymbol_moved hcode.2.1)).trans ?_
  refine (Execution.bind_of_ok (fetchImmediate_moved hcode.2.2.1)).trans ?_
  refine (Execution.bind_of_ok hid.place?).trans ?_
  refine (Execution.bind_of_ok ?_).trans (Execution.bind_of_ok (push_moved _ hroom))
  refine (Execution.bind_of_ok (hframes.read hid.lt)).trans ?_
  rw [hvalue, hflag]
  refine (Execution.bind_of_ok (withStore_moved (g := (·.alloc .empty)) rfl)).trans ?_
  exact Execution.bind_of_ok (hframes.write hid.lt _)

/-- A loop over an array begins. -/
theorem beginIteration {ref : ArrayRef} (operands : List Value)
    (h : home.Stands position locals (operands ++ [.array ref]) store s)
    (hcode : (home.context.pc.jump position).Holds [.op .beginIteration, .symbol id])
    (hid : home.HasLocal id o)
    (hroom : home.context.stack.size + operands.length ≤ home.context.limit) :
    ∃ t, host.Moves s t ∧ home.Stands (position + 2)
      (Function.update locals o (.iterator (store.iterate ref))) operands store t := by
  refine h.of_carryOut host .beginIteration hcode.1 hroom fun base hframes =>
    ⟨_, hframes.set hid.lt _, fun invoke dispatches => ?_⟩
  refine (Execution.bind_of_ok (fetchSymbol_moved hcode.2.1)).trans ?_
  refine (Execution.bind_of_ok hid.iteratorPlace).trans ?_
  have hpop : Execution.popArray .iterate
      (home.moved (position + 2) (base ++ (operands ++ [Value.array ref]).toArray) store
        dispatches) = .ok ref
      (home.moved (position + 2) (base ++ operands.toArray) store dispatches) :=
    Execution.bind_of_ok pop_moved
  refine (Execution.bind_of_ok hpop).trans ?_
  exact Execution.bind_of_ok (hframes.write hid.lt _)

/-- Goes to the slot that a branch leads to. -/
theorem branch {target : Nat} (h : home.Stands position locals operands store s)
    (hslot : (home.context.pc.jump position).slot? = some (.op .branch))
    (hbranch : home.context.pc.program.program.BranchesTo (position + 1) target)
    (htarget : target ≤ home.context.pc.program.program.size)
    (hroom : home.context.stack.size + operands.length ≤ home.context.limit) :
    ∃ t, host.Moves s t ∧ home.Stands target locals operands store t := by
  refine h.of_carryOut host .branch hslot hroom fun base hframes =>
    ⟨base, hframes, fun invoke dispatches => ?_⟩
  refine (Execution.bind_of_ok (fetchBranch_moved hbranch htarget)).trans ?_
  rfl

/-- Goes to the slot that a branch leads to if the top value is zero, and else on. -/
theorem branchFalse {target : Nat} {n : Int32} (operands : List Value)
    (h : home.Stands position locals (operands ++ [.int n]) store s)
    (hslot : (home.context.pc.jump position).slot? = some (.op .branchFalse))
    (hbranch : home.context.pc.program.program.BranchesTo (position + 1) target)
    (htarget : target ≤ home.context.pc.program.program.size)
    (hroom : home.context.stack.size + operands.length ≤ home.context.limit) :
    ∃ t, host.Moves s t ∧
      home.Stands (if n = 0 then target else position + 2) locals operands store t := by
  refine h.of_carryOut host .branchFalse hslot hroom fun base hframes =>
    ⟨base, hframes, fun invoke dispatches => ?_⟩
  refine (Execution.bind_of_ok (fetchBranch_moved hbranch htarget)).trans ?_
  refine (Execution.bind_of_ok pop_moved).trans ?_
  by_cases hn : n = 0
  · subst hn
    rfl
  · have hwanted : ((n != 0) == false) = false := by simpa using hn
    rw [if_neg hn]
    show (if (n != 0) == false then _ else _ : Execution Outcome) _ = _
    rw [hwanted]
    rfl

/-- The local variables once the iterator of a loop has moved on and its item has no value. -/
def turned (locals : Nat → Value) (item place : Nat) (it : Iterator) : Nat → Value :=
  Function.update (Function.update locals item .unset) place (.iterator it)

theorem turned_item {item place : Nat} (hne : item ≠ place) (it : Iterator) :
    turned locals item place it item = .unset := by
  rw [turned, Function.update_of_ne hne, Function.update_self]

theorem turned_place (item place : Nat) (it : Iterator) :
    turned locals item place it place = .iterator it :=
  Function.update_self ..

/-- The other variables keep what they hold. -/
theorem turned_of_ne {item place : Nat} (hitem : o ≠ item) (hplace : o ≠ place) (it : Iterator) :
    turned locals item place it o = locals o := by
  rw [turned, Function.update_of_ne hplace, Function.update_of_ne hitem]

/-- A loop goes on with its next key, or is left. -/
theorem iterate {itemId : SymbolId} {item exit : Nat} {it it' : Iterator} {key? : Option String}
    (h : home.Stands position locals operands store s)
    (hcode : (home.context.pc.jump position).Holds [.op .iterate, .symbol itemId, .symbol id])
    (hbranch : home.context.pc.program.program.BranchesTo (position + 3) exit)
    (hexit : exit ≤ home.context.pc.program.program.size)
    (hitem : home.HasLocal itemId item) (hid : home.HasLocal id o)
    (hvalue : locals o = .iterator it) (hnext : it.next store = .ok (key?, it'))
    (hroom : home.context.stack.size + operands.length ≤ home.context.limit) :
    ∃ t, host.Moves s t ∧ home.Stands (key?.elim exit fun _ => position + 4)
      (key?.elim (turned locals item o it') fun key =>
        Function.update (turned locals item o it') item (.text key)) operands store t := by
  refine h.of_carryOut host .iterate hcode.1 hroom fun base hframes => ?_
  have hcleared := hframes.set hitem.lt .unset
  have hturned := hcleared.set hid.lt (.iterator it')
  have hparts : ∀ (invoke : Execution.Caller) (dispatches : Array Dispatch),
      Execution.carryOut invoke .iterate
          (home.moved (position + 1) (base ++ operands.toArray) store dispatches) =
        (Execution.bindKey (.frame item) exit key? >>= fun _ => pure Outcome.next)
          (home.moved (position + 4)
            ((base.setIfInBounds (home.context.fp + item) .unset).setIfInBounds
              (home.context.fp + o) (.iterator it') ++ operands.toArray) store dispatches) := by
    intro invoke dispatches
    refine (Execution.bind_of_ok (fetchSymbol_moved hcode.2.1)).trans ?_
    refine (Execution.bind_of_ok (fetchSymbol_moved hcode.2.2.1)).trans ?_
    refine (Execution.bind_of_ok (fetchBranch_moved hbranch hexit)).trans ?_
    refine (Execution.bind_of_ok hitem.place?).trans ?_
    refine (Execution.bind_of_ok hid.iteratorPlace).trans ?_
    refine (Execution.bind_of_ok (hframes.read hid.lt)).trans ?_
    rw [hvalue]
    refine (Execution.bind_of_ok (hframes.write hitem.lt .unset)).trans ?_
    exact Execution.bind_of_ok (advance_moved hnext (hcleared.write hid.lt (.iterator it')))
  cases key? with
  | none => exact ⟨_, hturned, hparts⟩
  | some key =>
    refine ⟨_, hturned.set hitem.lt (.text key), fun invoke dispatches => ?_⟩
    rw [hparts]
    exact Execution.bind_of_ok (hturned.write hitem.lt (.text key))

/-- An instruction takes its operands off the stack and puts the results in their place. -/
theorem evaluates {host : Host} {op : Opcode} {slots : List Instruction}
    {arguments results : List Value} {after : Store} (operands : List Value)
    (hop : Evaluates host op slots arguments store (.ok (results, after)))
    (h : home.Stands position locals (operands ++ arguments) store s)
    (hcode : (home.context.pc.jump position).Holds (.op op :: slots))
    (hroom : home.context.stack.size + (operands ++ results).length ≤ home.context.limit) :
    ∃ t, host.Moves s t ∧ home.Stands (position + (1 + op.operandCount)) locals
      (operands ++ results) after t := by
  obtain @⟨base, dispatches, hframes, hfits⟩ := h
  have happend : ∀ values : List Value,
      base ++ (operands ++ values).toArray = base ++ operands.toArray ++ values.toArray := by
    simp
  have hpoised : (home.moved position (base ++ (operands ++ arguments).toArray) store
      dispatches).Poised (.op op :: slots) (base ++ operands.toArray) arguments :=
    ⟨hcode, happend arguments, by simpa [moved] using hfits⟩
  rw [← hframes.size] at hroom
  have hresults : (base ++ operands.toArray).size + results.length ≤ home.context.limit := by
    simpa [Nat.add_assoc] using hroom
  refine ⟨_, fun nested => hop nested _ _ hpoised rfl hresults, ?_⟩
  rw [← happend]
  exact .intro _ hframes hroom

end State.Stands

/-! ## The end of a macro -/

/-- A frame that no caller waits for, with its bookkeeping in order. -/
def Context.Outermost (c : Context) : Prop :=
  ∃ after, popFrame c = .ok none after

/-- Whether a frame is the outermost one can be told from what lies below it. -/
theorem Context.Outermost.of_below {c c' : Context} (h : c.Outermost) (hfp : c'.fp = c.fp)
    (hbelow : ∀ i, i < c.fp → c'.stack[i]? = c.stack[i]?) : c'.Outermost := by
  obtain ⟨after, hpop⟩ := h
  obtain ⟨caller, n, haddress, hframe, hcount, hn, hin, -⟩ := popFrame_eq_ok hpop
  have hslot : ∀ d, 0 < d → d ≤ c.fp → c'.stack[c'.fp - d]? = c.stack[c.fp - d]? := by
    intro d hd hle
    rw [hfp]
    exact hbelow _ (by omega)
  exact ⟨_, popFrame_of_slots ((hslot 4 (by omega) (by omega)).trans haddress)
    ((hslot 3 (by omega) (by omega)).trans hframe) ((hslot 2 (by omega) (by omega)).trans hcount) hn
    (hfp ▸ hin)⟩

/-- The outermost frame returns a value: this is the last instruction of the macro. -/
theorem State.Stands.ends (host : Host) {home s : State} {position : Nat} {locals : Nat → Value}
    {store : Store} {v : Value} (operands : List Value)
    (h : home.Stands position locals (operands ++ [v]) store s)
    (hslot : (home.context.pc.jump position).slot? = some (.op .returnValue))
    (houter : home.context.Outermost) (hfp : home.context.fp ≤ home.context.stack.size) :
    ∃ world, (∀ nested, Execution.ending? (Execution.step host nested s) = some (.done v, world)) ∧
      world.store = store ∧ world.calls = home.world.calls := by
  obtain @⟨base, dispatches, hframes, hfits⟩ := h
  have hlength : operands.length ≤ (operands ++ [v]).length := by simp
  have hsize : (base ++ operands.toArray).size ≤ home.context.limit := by
    simp only [Array.size_append, List.size_toArray]
    omega
  -- what is left of the frame after the value has been taken off the stack
  let rest : Context :=
    (home.moved (position + 1) (base ++ operands.toArray) store dispatches).context
  obtain ⟨after, hpop⟩ : rest.Outermost := by
    refine houter.of_below rfl fun i hi => ?_
    have hlt : i < base.size := hframes.size ▸ Nat.lt_of_lt_of_le hi hfp
    exact (Array.getElem?_append_left hlt).trans (hframes.below i hi)
  have hstep : ∀ nested, Execution.step host nested
      (home.moved position (base ++ (operands ++ [v]).toArray) store dispatches) =
        .ok .done ⟨Execution.recorded .returnValue
          (home.moved position (base ++ (operands ++ [v]).toArray) store dispatches),
          { after with stack := after.stack.push v }⟩ := fun nested =>
    (Execution.step_of_opcode hslot).trans
      ((Execution.bind_of_ok pop_moved).trans (leave_of_outermost (some v) hpop hsize))
  refine ⟨Execution.recorded .returnValue
    (home.moved position (base ++ (operands ++ [v]).toArray) store dispatches),
    fun nested => ?_, rfl, rfl⟩
  rw [hstep]
  simp [Execution.ending?, Context.pop]

/-- The outermost frame returns a value: the macro is done. -/
theorem State.Stands.returns (host : Host) {home s : State} {position : Nat} {locals : Nat → Value}
    {store : Store} {v : Value} (operands : List Value)
    (h : home.Stands position locals (operands ++ [v]) store s)
    (hslot : (home.context.pc.jump position).slot? = some (.op .returnValue))
    (houter : home.context.Outermost) (hfp : home.context.fp ≤ home.context.stack.size) :
    ∃ world, host.ComesTo s (.done v) world ∧ world.store = store := by
  obtain ⟨world, hends, hstore, -⟩ := h.ends host operands hslot houter hfp
  exact ⟨world, Host.comesTo_of_ending hends, hstore⟩

end MacroMachine
