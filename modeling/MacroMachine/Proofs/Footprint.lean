import MacroMachine.Proofs.Looking

/-!
# What an instruction leaves behind

Symbols and arrays outlive the macro that changes them.  This module says what an instruction that
runs no routine of the host can do to them, whether it succeeds (`Footprint`) or fails (`Residue`).

*Success.*  An instruction changes the value of at most one symbol, which is the global variable
that it names, and the elements of at most one container that was there before it, which is the one
that it took off the stack for that purpose.

*Failure.*  Instructions look before they change anything, with two exceptions.  A loop over keys
takes the value of its item away before it finds that the next key is gone, and an array is made
for a variable before it is known that the stack has room for it.  Every other failing instruction
leaves symbols and arrays as they were, apart from containers that nothing refers to.

*Runs.*  What one instruction keeps, any number of them keeps (`Host.QuietRun`), and so does a slice.
-/

namespace MacroMachine

/-! ## Symbols and stores -/

/-- Of two values that a symbol is given one after the other the last one counts. -/
theorem SymbolTable.setValue_setValue (t : SymbolTable) (id : SymbolId) (v v' : Value) :
    (t.setValue id v).setValue id v' = t.setValue id v' := by
  unfold setValue modify
  congr 1
  apply Array.ext_getElem?
  intro i
  simp only [Array.getElem?_modify]
  split
  · cases t.symbols[i]? <;> rfl
  · rfl

/-- No container that was there has changed. -/
structure Store.Grows (s t : Store) : Prop where
  size : s.containers.size ≤ t.containers.size
  entries : ∀ ref, ref.index < s.containers.size → t.entries ref = s.entries ref

namespace Store.Grows

variable {s t u : Store}

theorem refl (s : Store) : s.Grows s :=
  ⟨Nat.le_refl _, fun _ _ => rfl⟩

theorem trans (h : s.Grows t) (h' : t.Grows u) : s.Grows u where
  size := Nat.le_trans h.size h'.size
  entries ref href :=
    (h'.entries ref (Nat.lt_of_lt_of_le href h.size)).trans (h.entries ref href)

theorem alloc (s : Store) (e : Entries Value) : s.Grows (s.alloc e).2 where
  size := by simp [Store.alloc]
  entries ref href := by
    refine s.entries_alloc_of_ne e ?_
    rintro rfl
    exact Nat.lt_irrefl _ href

theorem copyForAssignment (s : Store) (v : Value) : s.Grows (s.copyForAssignment v).2 := by
  cases v with
  | array ref => exact alloc s (s.entries ref)
  | _ => exact refl s

end Store.Grows

/-- Symbols and documents are as they were, and no container that was there has changed. -/
structure Grown (s t : State) : Prop where
  symbols : t.world.symbols = s.world.symbols
  store : s.world.store.Grows t.world.store
  runTarget : t.context.runTarget = s.context.runTarget
  focusTarget : t.context.focusTarget = s.context.focusTarget

theorem Untouched.grown {s t : State} (h : Untouched s t) : Grown s t where
  symbols := h.symbols
  store := by
    rw [h.store]
    exact .refl _
  runTarget := h.runTarget
  focusTarget := h.focusTarget

theorem Grown.looked {s t u : State} (h : Grown s t) (h' : Untouched t u) : Grown s u where
  symbols := h'.symbols.trans h.symbols
  store := h.store.trans h'.grown.store
  runTarget := h'.runTarget.trans h.runTarget
  focusTarget := h'.focusTarget.trans h.focusTarget

/-! ## Footprints and residues -/

namespace State

/-- The next instruction has this opcode, and its first operand names a global variable. -/
structure NamesGlobal (s : State) (op : Opcode) (id : SymbolId) : Prop where
  opcode : s.context.nextIs op
  operand : (s.context.pc.advance 1).slot? = some (.symbol id)
  global : ∃ symbol, s.world.symbols.get? id = some symbol ∧ symbol.kind = .global

/-- The next instruction is to make an array for a global variable that has no value. -/
structure MakesArray (s : State) (id : SymbolId) : Prop extends s.NamesGlobal .pushArray id where
  flag : ∃ n, (s.context.pc.advance 2).slot? = some (.immediate n) ∧ n ≠ 0
  unset : ∀ symbol, s.world.symbols.get? id = some symbol → symbol.value = .unset

/-- The place of the variable that a symbol stands for. -/
inductive Designates (s : State) (id : SymbolId) : Place → Prop where
  | frame {symbol : Symbol} {offset : Nat} : s.world.symbols.get? id = some symbol →
      symbol.kind = .frameLocal → Designates s id (.frame offset)
  | global {symbol : Symbol} : s.world.symbols.get? id = some symbol → symbol.kind = .global →
      Designates s id (.global id)

/-- What the next instruction makes of the elements of a container if it changes them. -/
inductive Edits (s : State) (e : Entries Value) : Entries Value → Prop where
  | insert (key : String) (v : Value) : s.context.nextIs .setElement → Edits s e (e.insert key v)
  | erase (key : String) : s.context.nextIs .deleteElement →
      (s.context.pc.advance 1).number ≠ 0 → Edits s e (e.erase key)
  | clear : s.context.nextIs .deleteElement → (s.context.pc.advance 1).number = 0 →
      Edits s e .empty

end State

namespace State.NamesGlobal

variable {s : State} {op op' : Opcode} {id other : SymbolId}

theorem opcode_eq (h : s.NamesGlobal op id) (hop : s.context.pc.slot? = some (.op op')) :
    op = op' := by
  have hslot := Effects.nextIs_iff.1 h.opcode
  cases hslot.symm.trans hop
  rfl

/-- A variable of the frame is not global. -/
theorem ne_frameLocal {symbol : Symbol} (h : s.NamesGlobal op other)
    (hslot : (s.context.pc.advance 1).slot? = some (.symbol id))
    (hsymbol : s.world.symbols.get? id = some symbol) (hkind : symbol.kind = .frameLocal) :
    False := by
  cases hslot.symm.trans h.operand
  obtain ⟨symbol', hsymbol', hglobal⟩ := h.global
  cases hsymbol.symm.trans hsymbol'
  cases hkind.symm.trans hglobal

end State.NamesGlobal

/-- What an instruction may do to what outlives it. -/
structure Footprint (s t : State) : Prop where
  symbols : t.world.symbols = s.world.symbols ∨
    ∃ op id v, (op = .assign ∨ op = .iterate ∨ op = .pushArray) ∧ s.NamesGlobal op id ∧
      t.world.symbols = s.world.symbols.setValue id v
  containers : (∀ ref, ref.index < s.world.store.containers.size →
      t.world.store.entries ref = s.world.store.entries ref) ∨
    ∃ ref, s.deepest? = some (.array ref) ∧
      s.Edits (s.world.store.entries ref) (t.world.store.entries ref) ∧
      ∀ other, other.index < s.world.store.containers.size → other ≠ ref →
        t.world.store.entries other = s.world.store.entries other
  size : s.world.store.containers.size ≤ t.world.store.containers.size
  runTarget : t.context.runTarget = s.context.runTarget
  focusTarget : t.context.focusTarget = s.context.focusTarget

/-- What an instruction leaves behind that fails. -/
structure Residue (s : State) (f : Fault) (t : State) : Prop where
  store : s.world.store.Grows t.world.store
  lost : ∀ id key, s.NamesGlobal .iterate id → f = .iteratorLost key →
    t.world.symbols = s.world.symbols.setValue id .unset
  overflow : ∀ id, s.MakesArray id → f = .stackOverflow →
    ∃ fresh : ArrayRef, s.world.store.containers.size ≤ fresh.index ∧
      fresh.index < t.world.store.containers.size ∧ t.world.store.entries fresh = .empty ∧
      t.world.symbols = s.world.symbols.setValue id (.array fresh)
  otherwise : (∀ id key, s.NamesGlobal .iterate id → f ≠ .iteratorLost key) →
    (∀ id, s.MakesArray id → f ≠ .stackOverflow) → t.world.symbols = s.world.symbols
  runTarget : t.context.runTarget = s.context.runTarget
  focusTarget : t.context.focusTarget = s.context.focusTarget

theorem Grown.footprint {s t : State} (h : Grown s t) : Footprint s t where
  symbols := .inl h.symbols
  containers := .inl h.store.entries
  size := h.store.size
  runTarget := h.runTarget
  focusTarget := h.focusTarget

theorem Grown.residue {s t : State} {f : Fault} (h : Grown s t)
    (hlost : ∀ id key, s.NamesGlobal .iterate id → f ≠ .iteratorLost key)
    (hoverflow : ∀ id, s.MakesArray id → f ≠ .stackOverflow) : Residue s f t where
  store := h.store
  lost id key hnames hf := absurd hf (hlost id key hnames)
  overflow id hmakes hf := absurd hf (hoverflow id hmakes)
  otherwise _ _ := h.symbols
  runTarget := h.runTarget
  focusTarget := h.focusTarget

/-- A failing instruction leaves no larger footprint than another. -/
theorem Residue.footprint {s t : State} {f : Fault} (h : Residue s f t) : Footprint s t where
  symbols := by
    by_cases hlost : ∃ id key, s.NamesGlobal .iterate id ∧ f = .iteratorLost key
    · obtain ⟨id, key, hnames, hf⟩ := hlost
      exact .inr ⟨.iterate, id, _, .inr (.inl rfl), hnames, h.lost id key hnames hf⟩
    · by_cases hoverflow : ∃ id, s.MakesArray id ∧ f = .stackOverflow
      · obtain ⟨id, hmakes, hf⟩ := hoverflow
        obtain ⟨fresh, -, -, -, hsymbols⟩ := h.overflow id hmakes hf
        exact .inr ⟨.pushArray, id, _, .inr (.inr rfl), hmakes.toNamesGlobal, hsymbols⟩
      · refine .inl (h.otherwise (fun id key hnames hf => ?_) fun id hmakes hf => ?_)
        · exact hlost ⟨id, key, hnames, hf⟩
        · exact hoverflow ⟨id, hmakes, hf⟩
  containers := .inl h.store.entries
  size := h.store.size
  runTarget := h.runTarget
  focusTarget := h.focusTarget

theorem Popped.untouched {s₀ s : State} {a : CodeAddress} {n : Nat} (h : Popped s₀ a n s) :
    Untouched s₀ s where
  symbols := h.symbols
  store := h.store
  runTarget := by rw [h.context]
  focusTarget := by rw [h.context]

theorem Effects.place?_designates {s₀ : State} {a : CodeAddress} {n : Nat} (id : SymbolId) :
    Effects s₀ (Popped s₀ a n) (Execution.place? id)
      fun place s => (∀ p, place = some p → s₀.Designates id p) ∧ Popped s₀ a n s := by
  refine .bind (symbol_popped id) fun symbol => .given fun hsymbol => ?_
  split
  · next hkind =>
    refine .bind (.ofExcept safe_popped _) fun offset => .given fun _ => ?_
    refine .pure fun s hs => ⟨?_, hs⟩
    rintro p ⟨⟩
    exact .frame hsymbol hkind
  · next hkind =>
    refine .pure fun s hs => ⟨?_, hs⟩
    rintro p ⟨⟩
    exact .global hsymbol hkind
  · exact .pure fun s hs => ⟨nofun, hs⟩

/-- What a global variable holds. -/
theorem Effects.read_global {s₀ : State} {a : CodeAddress} {n : Nat} (id : SymbolId) :
    Effects s₀ (Popped s₀ a n) (Execution.read (.global id)) fun v s =>
      (∃ symbol, s₀.world.symbols.get? id = some symbol ∧ symbol.value = v) ∧
        Popped s₀ a n s := by
  refine .bind (symbol_popped id) fun symbol => .given fun hsymbol => ?_
  exact .pure fun s hs => ⟨⟨symbol, hsymbol, rfl⟩, hs⟩

theorem Effects.iteratorPlace_frame {s₀ : State} {a : CodeAddress} {n : Nat} (id : SymbolId) :
    Effects s₀ (Popped s₀ a n) (Execution.iteratorPlace id)
      fun place s => (∃ offset, place = .frame offset) ∧ Popped s₀ a n s := by
  refine .bind (symbol_popped id) fun symbol => .given fun _ => ?_
  split
  · refine .bind (.ofExcept safe_popped _) fun offset => .given fun _ => ?_
    exact .pure fun s hs => ⟨⟨offset, rfl⟩, hs⟩
  · exact .raise safe_popped _

/-- A variable of the frame that can be read has a slot. -/
theorem Effects.read_frame {s₀ : State} {a : CodeAddress} {n : Nat} (offset : Nat) :
    Effects s₀ (Popped s₀ a n) (Execution.read (.frame offset))
      fun _ s => s.context.fp + offset < s.context.stack.size ∧ Popped s₀ a n s := by
  intro s hs
  cases hslot : s.context.stack[s.context.fp + offset]? with
  | some v =>
    have hread : Execution.read (.frame offset) s = .ok v s := by
      simp [Execution.read, Execution.view, Context.localValue, hslot]
    rw [hread]
    exact ⟨(Array.getElem?_eq_some_iff.1 hslot).1, hs⟩
  | none =>
    have hread : Execution.read (.frame offset) s =
        .error (.fault (.malformed (.localOutsideFrame offset))) s := by
      simp [Execution.read, Execution.view, Context.localValue, hslot]
    rw [hread]
    exact ⟨s, .popped hs, rfl⟩

/-- A count is the number that stands in the code. -/
theorem Effects.fetchCount_number {s₀ : State} {a : CodeAddress} {n : Nat} :
    Effects s₀ (Popped s₀ a n) (Execution.transition Context.fetchCount)
      fun m s => (m : Int) = a.number ∧ Popped s₀ (a.advance 1) n s := by
  rw [Discipline.transition_fetchCount]
  refine .bind fetchImmediate fun m => .given fun hslot => ?_
  split
  · exact .raise safe_popped _
  · next hnonneg =>
    refine .pure fun s hs => ⟨?_, hs⟩
    rw [CodeAddress.number, hslot]
    exact Int.toNat_of_nonneg (Int.not_lt.1 hnonneg)

namespace Execution

/-- A global variable can be written if it is there. -/
theorem write_global {id : SymbolId} {symbol : Symbol} {s : State} (v : Value)
    (h : s.world.symbols.get? id = some symbol) :
    write (.global id) v s = .ok () (s.put (.global id) v) := by
  have hsymbol : Execution.symbol id s = .ok symbol s := by simp only [Execution.symbol, h]
  exact bind_of_ok hsymbol

/-- A variable of the frame can be written if the stack has its slot. -/
theorem write_frame {offset : Nat} {s : State} (v : Value)
    (h : s.context.fp + offset < s.context.stack.size) :
    write (.frame offset) v s = .ok () (s.put (.frame offset) v) := by
  have hset : Context.setLocal offset v s.context = .ok () { s.context with
      stack := s.context.stack.setIfInBounds (s.context.fp + offset) v } := by
    simp only [Context.setLocal, if_pos h]
  exact transition_of_ok hset

end Execution

/-! ## Triples with a residue -/

/-- From a state that satisfies `pre`, an execution comes to a state that satisfies `post`, or it
stops with a fault and leaves behind what `residue` says. -/
def Leaves {α : Type} (pre : State → Prop) (x : Execution α) (post : α → State → Prop)
    (residue : Fault → State → Prop) : Prop :=
  ∀ s, pre s → match x s with
    | .ok a t => post a t
    | .error halt t => ∃ f, halt = .fault f ∧ residue f t

namespace Leaves

variable {α β : Type} {pre : State → Prop} {x : Execution α} {post : α → State → Prop}
  {residue : Fault → State → Prop} {s₀ : State} {a : CodeAddress} {n k : Nat} {why : Fault → Prop}

theorem pure {b : α} (h : ∀ s, pre s → post b s) : Leaves pre (Pure.pure b) post residue :=
  fun s hs => h s hs

theorem raise {f : Fault} (h : ∀ s, pre s → residue f s) :
    Leaves pre (Execution.raise f) post residue :=
  fun s hs => ⟨f, rfl, h s hs⟩

theorem bind {f : α → Execution β} {last : β → State → Prop} (hx : Leaves pre x post residue)
    (hf : ∀ b, Leaves (post b) (f b) last residue) : Leaves pre (x >>= f) last residue := by
  intro s hs
  have h := hx s hs
  cases heq : x s with
  | ok b t =>
    rw [heq] at h
    rw [Execution.bind_of_ok heq]
    exact hf b t h
  | error halt t =>
    rw [heq] at h
    rw [Execution.bind_of_error heq]
    exact h

/-- A pure fact of the precondition is a hypothesis. -/
theorem given {fact : Prop} (h : fact → Leaves pre x post residue) :
    Leaves (fun s => fact ∧ pre s) x post residue :=
  fun s hs => h hs.1 s hs.2

theorem before {pre' : State → Prop} (h : Leaves pre x post residue) (hpre : ∀ s, pre' s → pre s) :
    Leaves pre' x post residue :=
  fun s hs => h s (hpre s hs)

theorem after {post' : α → State → Prop} (h : Leaves pre x post residue)
    (hpost : ∀ b s, post b s → post' b s) : Leaves pre x post' residue := by
  intro s hs
  have hx := h s hs
  cases heq : x s with
  | ok b t =>
    rw [heq] at hx
    exact hpost b t hx
  | error halt t =>
    rw [heq] at hx
    exact hx

theorem residual {residue' : Fault → State → Prop} (h : Leaves pre x post residue)
    (hresidue : ∀ f s, residue f s → residue' f s) : Leaves pre x post residue' := by
  intro s hs
  have hx := h s hs
  cases heq : x s with
  | ok b t =>
    rw [heq] at hx
    exact hx
  | error halt t =>
    rw [heq] at hx
    obtain ⟨f, hhalt, hf⟩ := hx
    exact ⟨f, hhalt, hresidue f t hf⟩

/-- Looking takes place in states that are not told apart by looking. -/
theorem look (h : Looks why n x) (hstable : ∀ s t, pre s → Untouched s t → pre t)
    (hresidue : ∀ f t, why f → pre t → residue f t) : Leaves pre x (fun _ => pre) residue := by
  intro s hs
  have hlook := h s
  unfold LooksAt at hlook
  cases heq : x s with
  | ok b t =>
    rw [heq] at hlook
    exact hstable s t hs hlook.1
  | error halt t =>
    rw [heq] at hlook
    obtain ⟨f, hhalt, hwhy, huntouched⟩ := hlook
    exact ⟨f, hhalt, hresidue f t hwhy (hstable s t hs huntouched)⟩

theorem wander (h : ∀ s, Popped s₀ a k s → WandersAt x s) :
    Leaves (Popped s₀ a k) x (fun _ => Untouched s₀) fun _ => Untouched s₀ := by
  intro s hs
  have hlook := h s hs
  unfold WandersAt at hlook
  cases heq : x s with
  | ok b t =>
    rw [heq] at hlook
    exact hs.untouched.trans hlook
  | error halt t =>
    rw [heq] at hlook
    obtain ⟨f, hhalt, huntouched⟩ := hlook
    exact ⟨f, hhalt, hs.untouched.trans huntouched⟩

/-- Within the first phase an instruction finds what `post` says, or it fails without a trace. -/
theorem first (h : Looks why n x) (heffects : Effects s₀ (Popped s₀ a k) x post)
    (hresidue : ∀ f t, why f → Untouched s₀ t → residue f t) :
    Leaves (Popped s₀ a k) x post residue := by
  intro s hs
  have hlook := h s
  have hpost := heffects s hs
  unfold LooksAt at hlook
  cases heq : x s with
  | ok b t =>
    rw [heq] at hpost
    exact hpost
  | error halt t =>
    rw [heq] at hlook
    obtain ⟨f, hhalt, hwhy, huntouched⟩ := hlook
    exact ⟨f, hhalt, hresidue f t hwhy (hs.untouched.trans huntouched)⟩

/-! ## Instructions that change something -/

section Changing

theorem grownLook (h : Looks Fault.Any n x) :
    Leaves (Grown s₀) x (fun _ => Grown s₀) fun _ => Grown s₀ :=
  .look h (fun _ _ hs huntouched => hs.looked huntouched) fun _ _ _ ht => ht

theorem grownFirst (h : Looks Fault.Any n x) (heffects : Effects s₀ (Popped s₀ a k) x post) :
    Leaves (Popped s₀ a k) x post fun _ => Grown s₀ :=
  .first h heffects fun _ _ _ ht => ht.grown

theorem finish {outcome : Outcome} :
    Leaves (Footprint s₀) (Pure.pure outcome) (fun _ => Footprint s₀) residue :=
  .pure fun _ hs => hs

theorem pushed (v : Value) :
    Leaves (Grown s₀) (do Execution.push v; return .next : Execution Outcome)
      (fun _ => Footprint s₀) fun _ => Grown s₀ :=
  .bind (grownLook (.push v)) fun _ => .pure fun _ hs => hs.footprint

/-- A change of the store that only makes containers. -/
theorem withStore {f : Store → α × Store} (hgrows : ∀ store : Store, store.Grows (f store).2) :
    Leaves (Grown s₀) (Execution.withStore f) (fun _ => Grown s₀) residue :=
  fun _ hs => ⟨hs.symbols, hs.store.trans (hgrows _), hs.runTarget, hs.focusTarget⟩

theorem write {op : Opcode} {id : SymbolId} {place : Place} (v : Value)
    (hwrites : op = .assign ∨ op = .iterate ∨ op = .pushArray) (hop : s₀.context.nextIs op)
    (hslot : (s₀.context.pc.advance 1).slot? = some (.symbol id))
    (hplace : s₀.Designates id place) :
    Leaves (Grown s₀) (Execution.write place v) (fun _ => Footprint s₀) fun _ => Grown s₀ := by
  cases hplace with
  | frame => exact (grownLook (Looks.setLocal _ v).any).after fun _ _ hs => hs.footprint
  | global hsymbol hkind =>
    refine .bind (grownLook (Looks.symbol id).any) fun _ s hs => ?_
    have hnames : s₀.NamesGlobal op id := ⟨hop, hslot, _, hsymbol, hkind⟩
    refine ⟨.inr ⟨op, id, v, hwrites, hnames, ?_⟩, .inl hs.store.entries, hs.store.size,
      hs.runTarget, hs.focusTarget⟩
    exact congrArg (·.setValue id v) hs.symbols

theorem assign (hop : s₀.context.pc.slot? = some (.op .assign)) :
    Leaves (Popped s₀ (s₀.context.pc.advance 1) 0) Execution.assign (fun _ => Footprint s₀)
      fun _ => Grown s₀ := by
  refine .bind (grownFirst Looks.fetchSymbol.any Effects.fetchSymbol) fun id => .given fun hslot => ?_
  refine .bind (grownFirst (Looks.place? id).any (Effects.place?_designates id)) fun place => ?_
  refine .given fun hplace => .before ?_ fun s hs => hs.untouched.grown
  cases place with
  | none =>
    exact .bind (grownLook (Looks.symbol id).any) fun symbol => .raise fun _ hs => hs
  | some place =>
    refine .bind (grownLook .pop) fun v => ?_
    refine .bind (withStore fun store => .copyForAssignment store v) fun copied => ?_
    exact .bind (write copied (.inl rfl) (Effects.nextIs_iff.2 hop) hslot (hplace place rfl))
      fun _ => finish

/-! ### Operators and arguments -/

theorem arrayOrInt {setOperator : Store → ArrayRef → ArrayRef → ArrayRef × Store}
    (hset : ∀ store left right, ∃ e, setOperator store left right = store.alloc e)
    (f : Int32 → Int32 → Int32) :
    Leaves (Grown s₀) (Execution.arrayOrInt setOperator f) (fun _ => Footprint s₀)
      fun _ => Grown s₀ := by
  have hgrows : ∀ left right (store : Store), store.Grows (setOperator store left right).2 := by
    intro left right store
    obtain ⟨e, he⟩ := hset store left right
    rw [he]
    exact .alloc store e
  refine .bind (grownLook (.viewAny _)) fun top => ?_
  split
  · refine .bind (grownLook (.viewAny _)) fun second => ?_
    split
    · refine .bind (grownLook .pop) fun _ => .bind (grownLook (.convert _)) fun right => ?_
      refine .bind (grownLook .pop) fun _ => .bind (grownLook (.convert _)) fun left => ?_
      exact .bind (withStore (hgrows left right)) fun ref => pushed _
    · exact .raise fun _ hs => hs
  · exact (grownLook (.binaryInt _)).after fun _ _ hs => hs.footprint

theorem pushArgumentArray :
    Leaves (Grown s₀) Execution.pushArgumentArray (fun _ => Footprint s₀) fun _ => Grown s₀ := by
  refine .bind (grownLook (.viewAny _)) fun cached => ?_
  dsimp only
  split
  · exact pushed cached
  · refine .bind (?_ : Leaves (Grown s₀) _ (fun _ => Grown s₀) _) fun array => pushed array
    refine .bind (grownLook (.viewAny _)) fun arguments => ?_
    refine .bind (withStore fun store => .alloc store _) fun ref => ?_
    exact .bind (grownLook (.setArgumentArray _)) fun _ => .pure fun _ hs => hs

/-! ### Elements -/

/-- A change of the container that the instruction took off the stack. -/
theorem edit {ref : ArrayRef} {f : Entries Value → Entries Value}
    (href : s₀.deepest? = some (.array ref)) (hedits : ∀ e, s₀.Edits e (f e)) :
    Leaves (Grown s₀) (Execution.modifyStore (·.modify ref f)) (fun _ => Footprint s₀)
      residue := by
  intro s hs
  have hsize : (s.world.store.modify ref f).containers.size = s.world.store.containers.size :=
    Array.size_modify
  have hother : ∀ other : ArrayRef, other.index < s₀.world.store.containers.size → other ≠ ref →
      (s.world.store.modify ref f).entries other = s₀.world.store.entries other := by
    intro other hexists hne
    rw [Store.entries_modify_of_ne _ f hne, hs.store.entries other hexists]
  refine ⟨.inl hs.symbols, ?_, Nat.le_trans hs.store.size (Nat.le_of_eq hsize.symm), hs.runTarget,
    hs.focusTarget⟩
  by_cases hexists : ref.index < s₀.world.store.containers.size
  · refine .inr ⟨ref, href, ?_, hother⟩
    show s₀.Edits _ ((s.world.store.modify ref f).entries ref)
    rw [Store.entries_modify _ f (Nat.lt_of_lt_of_le hexists hs.store.size),
      hs.store.entries ref hexists]
    exact hedits _
  · refine .inl fun other hother' => hother other hother' ?_
    rintro rfl
    exact hexists hother'

theorem setElement (hop : s₀.context.pc.slot? = some (.op .setElement)) :
    Leaves (Popped s₀ (s₀.context.pc.advance 1) 0) Execution.setElement (fun _ => Footprint s₀)
      fun _ => Grown s₀ := by
  have hfew : s₀.context.demand = (s₀.context.pc.advance 1).number.toNat + 2 :=
    Effects.demand_eq hop
  refine .bind (grownFirst Looks.fetchCount.any Effects.fetchCount_number) fun dimensions => ?_
  refine .given fun hdimensions => ?_
  refine .bind (grownFirst .pop (Effects.pop (by omega))) fun v => .given fun _ => ?_
  split
  · exact .raise fun _ hs => hs.untouched.grown
  · refine .bind (grownFirst (.popKey _) (Effects.popKey (by omega))) fun key => ?_
    refine .bind (grownFirst (.popArray _) (Effects.popArray _ (by omega))) fun ref => ?_
    refine .given fun href => .before ?_ fun s hs => hs.untouched.grown
    refine .bind (withStore fun store => .copyForAssignment store v) fun copied => ?_
    have hdeepest : s₀.deepest? = some (.array ref) := by
      rw [State.deepest?, ← href]
      congr 2
      omega
    exact .bind (edit hdeepest fun e => .insert key copied (Effects.nextIs_iff.2 hop)) fun _ =>
      finish

theorem deleteElement (hop : s₀.context.pc.slot? = some (.op .deleteElement)) :
    Leaves (Popped s₀ (s₀.context.pc.advance 1) 0) Execution.deleteElement
      (fun _ => Footprint s₀) fun _ => Grown s₀ := by
  have hfew : s₀.context.demand = (s₀.context.pc.advance 1).number.toNat + 1 :=
    Effects.demand_eq hop
  have hnext : s₀.context.nextIs .deleteElement := Effects.nextIs_iff.2 hop
  refine .bind (grownFirst Looks.fetchCount.any Effects.fetchCount_number) fun dimensions => ?_
  refine .given fun hdimensions => ?_
  have hdeepest : ∀ {ref : ArrayRef}, s₀.context.stack[s₀.context.stack.size -
      (dimensions + 1)]? = some (.array ref) → s₀.deepest? = some (.array ref) := by
    intro ref href
    rw [State.deepest?, hfew, ← hdimensions, Int.toNat_natCast, href]
  split
  · next hzero =>
    subst hzero
    refine .bind (grownFirst (.popArray _) (Effects.popArray _ (by omega))) fun ref => ?_
    refine .given fun href => .before ?_ fun s hs => hs.untouched.grown
    exact .bind (edit (hdeepest href) fun e => .clear hnext hdimensions.symm) fun _ => finish
  · refine .bind (grownFirst (.popKey _) (Effects.popKey (by omega))) fun key => ?_
    refine .bind (grownFirst (.popArray _) (Effects.popArray _ (by omega))) fun ref => ?_
    refine .given fun href => .before ?_ fun s hs => hs.untouched.grown
    rw [Nat.zero_add] at href
    exact .bind (edit (hdeepest href) fun e => .erase key hnext (by omega)) fun _ => finish

end Changing

end Leaves

/-! ### Arrays of variables -/

section Exceptions

variable {s₀ : State} {a : CodeAddress} {n : Nat}

/-- A global variable that had no value has a new empty array. -/
structure MadeGlobal (s₀ : State) (id : SymbolId) (s : State) : Prop where
  makes : s₀.MakesArray id
  store : s₀.world.store.Grows s.world.store
  symbols : ∃ fresh : ArrayRef, s₀.world.store.containers.size ≤ fresh.index ∧
    fresh.index < s.world.store.containers.size ∧ s.world.store.entries fresh = .empty ∧
    s.world.symbols = s₀.world.symbols.setValue id (.array fresh)
  runTarget : s.context.runTarget = s₀.context.runTarget
  focusTarget : s.context.focusTarget = s₀.context.focusTarget

theorem MadeGlobal.looked {id : SymbolId} {s t : State} (h : MadeGlobal s₀ id s)
    (huntouched : Untouched s t) : MadeGlobal s₀ id t where
  makes := h.makes
  store := h.store.trans huntouched.grown.store
  symbols := by
    rw [huntouched.symbols, huntouched.store]
    exact h.symbols
  runTarget := huntouched.runTarget.trans h.runTarget
  focusTarget := huntouched.focusTarget.trans h.focusTarget

theorem MadeGlobal.footprint {id : SymbolId} {s : State} (h : MadeGlobal s₀ id s) :
    Footprint s₀ s := by
  obtain ⟨fresh, -, -, -, hsymbols⟩ := h.symbols
  exact ⟨.inr ⟨.pushArray, id, _, .inr (.inr rfl), h.makes.toNamesGlobal, hsymbols⟩,
    .inl h.store.entries, h.store.size, h.runTarget, h.focusTarget⟩

theorem MadeGlobal.residue {id : SymbolId} {s : State} (h : MadeGlobal s₀ id s) :
    Residue s₀ .stackOverflow s where
  store := h.store
  lost _ _ _ hf := by cases hf
  overflow other hmakes _ := by
    have hslot := h.makes.operand.symm.trans hmakes.operand
    cases hslot
    exact h.symbols
  otherwise _ hoverflow := absurd rfl (hoverflow id h.makes)
  runTarget := h.runTarget
  focusTarget := h.focusTarget


theorem Untouched.residue_of_early {f : Fault} {t : State} (h : Untouched s₀ t) (hf : f.Early) :
    Residue s₀ f t := by
  refine h.grown.residue (fun _ _ _ heq => ?_) fun _ _ heq => ?_
  · subst heq
    exact hf
  · subst heq
    exact hf

namespace Leaves

variable {α : Type} {x : Execution α} {post : α → State → Prop} {k : Nat}

theorem early (h : Looks Fault.Early k x) (heffects : Effects s₀ (Popped s₀ a n) x post) :
    Leaves (Popped s₀ a n) x post (Residue s₀) :=
  .first h heffects fun _ _ hf ht => ht.residue_of_early hf

/-- The state before an array of a variable is put on the stack. -/
def Prepared (s₀ : State) (id : SymbolId) (s : State) : Prop :=
  Grown s₀ s ∧ (∀ other, ¬ s₀.MakesArray other) ∨ MadeGlobal s₀ id s

theorem makeArray_frame (offset : Nat) :
    Leaves (Grown s₀) (Execution.makeArray (.frame offset)) (fun _ => Grown s₀)
      fun _ => Grown s₀ := by
  refine .bind (withStore fun store => .alloc store _) fun ref => ?_
  exact .bind (grownLook (Looks.setLocal offset _).any) fun _ => .pure fun _ hs => hs

theorem makeArray_global {id : SymbolId} (hmakes : s₀.MakesArray id) :
    Leaves (Popped s₀ a n) (Execution.makeArray (.global id)) (fun _ => MadeGlobal s₀ id)
      (Residue s₀) := by
  intro s hs
  obtain ⟨symbol, hsymbol, -⟩ := hmakes.global
  have hfound : (s.make .empty).world.symbols.get? id = some symbol := by
    rw [show (s.make .empty).world.symbols = s.world.symbols from rfl, hs.symbols, hsymbol]
  have hstore := Store.Grows.alloc s.world.store .empty
  have hmake : Execution.makeArray (.global id) s =
      .ok (.array s.fresh) ((s.make .empty).put (.global id) (.array s.fresh)) := by
    have halloc : Execution.withStore (·.alloc .empty) s = .ok s.fresh (s.make .empty) := rfl
    unfold Execution.makeArray
    rw [Execution.bind_of_ok halloc, Execution.bind_of_ok (Execution.write_global _ hfound)]
    rfl
  rw [hmake]
  refine ⟨hmakes, ?_, ⟨s.fresh, ?_, ?_, ?_, ?_⟩, hs.untouched.runTarget, hs.untouched.focusTarget⟩
  · rw [← hs.store]
    exact hstore
  · rw [← hs.store]
    exact Nat.le_refl _
  · show s.world.store.containers.size < (s.make .empty).world.store.containers.size
    rw [State.size_make]
    exact Nat.lt_succ_self _
  · exact Store.entries_alloc _ _
  · exact congrArg (·.setValue id (.array s.fresh)) hs.symbols

theorem arrayOf_frame (id : SymbolId) (offset : Nat) (makeEmpty : Bool) :
    Leaves (Grown s₀) (Execution.arrayOf id (.frame offset) makeEmpty) (fun _ => Grown s₀)
      fun _ => Grown s₀ := by
  refine .bind (grownLook (Looks.read (.frame offset)).any) fun v => ?_
  split
  · split
    · exact makeArray_frame offset
    · exact .bind (grownLook (.symbolName id)) fun _ => .raise fun _ hs => hs
  · exact .pure fun _ hs => hs

theorem arrayOf_global {id : SymbolId} {flag : Int64}
    (hnames : s₀.NamesGlobal .pushArray id)
    (hflag : (s₀.context.pc.advance 2).slot? = some (.immediate flag)) :
    Leaves (Popped s₀ a n) (Execution.arrayOf id (.global id) (flag != 0))
      (fun _ => Prepared s₀ id) (Residue s₀) := by
  refine .bind (early (.read _) (Effects.read_global id)) fun v => ?_
  refine .given fun ⟨symbol, hsymbol, hvalue⟩ => ?_
  split
  · next hunset =>
    have hv : v = .unset := by
      cases v with
      | unset => rfl
      | _ => cases hunset
    subst hv
    split
    · next hmake =>
      have hmakes : s₀.MakesArray id := by
        refine ⟨hnames, ⟨flag, hflag, by simpa using hmake⟩, fun other hother => ?_⟩
        cases hsymbol.symm.trans hother
        exact hvalue
      exact (makeArray_global hmakes).after fun _ _ hs => .inr hs
    · refine .bind (early (.symbolName id) (Effects.symbolName id)) fun name => .raise fun s hs => ?_
      exact hs.untouched.residue_of_early trivial
  · next hset =>
    refine .pure fun s hs => .inl ⟨hs.untouched.grown, fun other hmakes => ?_⟩
    cases hnames.operand.symm.trans hmakes.operand
    rw [← hvalue, hmakes.unset symbol hsymbol] at hset
    exact hset rfl

theorem pushPrepared {id : SymbolId} (v : Value) :
    Leaves (Prepared s₀ id) (do Execution.push v; return .next : Execution Outcome)
      (fun _ => Footprint s₀) (Residue s₀) := by
  refine .bind (.look (.push_overflow v) ?_ ?_) fun _ => .pure fun s hs => ?_
  · rintro s t (⟨hgrown, hnone⟩ | hmade) huntouched
    · exact .inl ⟨hgrown.looked huntouched, hnone⟩
    · exact .inr (hmade.looked huntouched)
  · rintro f s rfl (⟨hgrown, hnone⟩ | hmade)
    · exact hgrown.residue (fun _ _ _ => nofun) fun other hmakes => absurd hmakes (hnone other)
    · exact hmade.residue
  · rcases hs with ⟨hgrown, -⟩ | hmade
    · exact hgrown.footprint
    · exact hmade.footprint

theorem pushArray (hop : s₀.context.pc.slot? = some (.op .pushArray)) :
    Leaves (Popped s₀ (s₀.context.pc.advance 1) 0) Execution.pushArray (fun _ => Footprint s₀)
      (Residue s₀) := by
  have hnext : s₀.context.nextIs .pushArray := Effects.nextIs_iff.2 hop
  refine .bind (early .fetchSymbol Effects.fetchSymbol) fun id => .given fun hslot => ?_
  refine .bind (early .fetchImmediate Effects.fetchImmediate) fun flag => .given fun hflag => ?_
  refine .bind (early (.place? id) (Effects.place?_designates id)) fun place => ?_
  refine .given fun hplace => ?_
  cases place with
  | none =>
    refine .bind (early (.symbolName id) (Effects.symbolName id)) fun name => .raise fun s hs => ?_
    exact hs.untouched.residue_of_early trivial
  | some place =>
    cases hplace place rfl with
    | @frame symbol offset hsymbol hkind =>
      have hnone : ∀ other, ¬ s₀.NamesGlobal .pushArray other := fun other hnames =>
        hnames.ne_frameLocal hslot hsymbol hkind
      refine .before ?_ fun s hs => hs.untouched.grown
      refine .residual (.bind (arrayOf_frame id offset _) fun v => pushed v) fun f s hs => ?_
      refine hs.residue (fun other key hnames => ?_) fun other hmakes => ?_
      · exact absurd (hnames.opcode_eq hop) (by decide)
      · exact absurd hmakes.toNamesGlobal (hnone other)
    | @global symbol hsymbol hkind =>
      have hnames : s₀.NamesGlobal .pushArray id := ⟨hnext, hslot, symbol, hsymbol, hkind⟩
      exact .bind (arrayOf_global hnames hflag) fun v => pushPrepared v

/-! ### Loops -/

/-- The item of a loop, a global variable, has no value. -/
structure Unbound (s₀ : State) (id : SymbolId) (offset : Nat) (s : State) : Prop where
  names : s₀.NamesGlobal .iterate id
  symbols : s.world.symbols = s₀.world.symbols.setValue id .unset
  store : s.world.store = s₀.world.store
  room : s.context.fp + offset < s.context.stack.size
  runTarget : s.context.runTarget = s₀.context.runTarget
  focusTarget : s.context.focusTarget = s₀.context.focusTarget

theorem Unbound.residue {id : SymbolId} {offset : Nat} {s : State} {key : String}
    (h : Unbound s₀ id offset s) : Residue s₀ (.iteratorLost key) s where
  store := by
    rw [h.store]
    exact .refl _
  lost other key' hnames hf := by
    cases h.names.operand.symm.trans hnames.operand
    exact h.symbols
  overflow _ _ hf := by cases hf
  otherwise hlost _ := absurd rfl (hlost id key h.names)
  runTarget := h.runTarget
  focusTarget := h.focusTarget

theorem unbind {id : SymbolId} (offset : Nat) (hnames : s₀.NamesGlobal .iterate id) :
    Leaves (fun s => s.context.fp + offset < s.context.stack.size ∧ Popped s₀ a n s)
      (Execution.write (.global id) .unset) (fun _ => Unbound s₀ id offset) (Residue s₀) := by
  rintro s ⟨hroom, hs⟩
  obtain ⟨symbol, hsymbol, -⟩ := hnames.global
  rw [← hs.symbols] at hsymbol
  rw [Execution.write_global _ hsymbol]
  refine ⟨hnames, ?_, hs.store, hroom, hs.untouched.runTarget, hs.untouched.focusTarget⟩
  exact congrArg (·.setValue id .unset) hs.symbols

theorem advance {id : SymbolId} {offset : Nat} (it : Iterator) :
    Leaves (Unbound s₀ id offset) (Execution.advance (.frame offset) it)
      (fun _ => Unbound s₀ id offset) (Residue s₀) := by
  have hworld : Leaves (Unbound s₀ id offset) Execution.world (fun _ => Unbound s₀ id offset)
      (Residue s₀) := fun _ hs => hs
  have hwrite : ∀ v, Leaves (Unbound s₀ id offset) (Execution.write (.frame offset) v)
      (fun _ => Unbound s₀ id offset) (Residue s₀) := by
    intro v s hs
    rw [Execution.write_frame v hs.room]
    refine ⟨hs.names, hs.symbols, hs.store, ?_, hs.runTarget, hs.focusTarget⟩
    exact Nat.lt_of_lt_of_eq hs.room Array.size_setIfInBounds.symm
  refine .bind hworld fun w => ?_
  split
  · exact .bind (hwrite _) fun _ => .pure fun _ hs => hs
  · exact .raise fun s hs => hs.residue

theorem bindKey {id : SymbolId} {offset : Nat} (exit : Nat) (key : Option String) :
    Leaves (Unbound s₀ id offset) (Execution.bindKey (.global id) exit key)
      (fun _ => Footprint s₀) (Residue s₀) := by
  intro s hs
  have hfootprint : ∀ {t : State} (v : Value), t.world.symbols = s₀.world.symbols.setValue id v →
      t.world.store = s.world.store → t.context.runTarget = s.context.runTarget →
      t.context.focusTarget = s.context.focusTarget → Footprint s₀ t := by
    intro t v hsymbols hstore hrun hfocus
    rw [hs.store] at hstore
    refine ⟨.inr ⟨.iterate, id, v, .inr (.inl rfl), hs.names, hsymbols⟩, .inl fun ref _ => ?_, ?_,
      hrun.trans hs.runTarget, hfocus.trans hs.focusTarget⟩
    · rw [hstore]
    · exact Nat.le_of_eq (by rw [hstore])
  cases key with
  | some key =>
    obtain ⟨symbol, hsymbol, -⟩ := hs.names.global
    have hfound : s.world.symbols.get? id = some { symbol with value := .unset } := by
      rw [hs.symbols, SymbolTable.setValue, SymbolTable.get?_modify, hsymbol]
      rfl
    have hwrite : Execution.bindKey (.global id) exit (some key) s =
        .ok () (s.put (.global id) (.text key)) := Execution.write_global _ hfound
    rw [hwrite]
    refine hfootprint (.text key) ?_ rfl rfl rfl
    show s.world.symbols.setValue id (.text key) = _
    rw [hs.symbols, SymbolTable.setValue_setValue]
  | none => exact hfootprint .unset hs.symbols rfl rfl rfl

/-- A loop whose item is a variable of the frame only looks. -/
theorem wanders_iterate (offset exit : Nat) (iteratorId : SymbolId) :
    Wanders (do
      let place ← Execution.iteratorPlace iteratorId
      match ← Execution.read place with
      | .iterator it =>
        Execution.write (.frame offset) .unset
        Execution.bindKey (.frame offset) exit (← Execution.advance place it)
        return .next
      | _ => Execution.raise (.badIterator (← Execution.symbolName iteratorId)) :
      Execution Outcome) := by
  intro s
  refine WandersAt.bind ((Looks.iteratorPlace iteratorId).any s).wandersAt fun place t hplace => ?_
  obtain ⟨rfl, -, place, -, -, rfl⟩ := Execution.iteratorPlace_eq_ok hplace
  refine Wanders.bind (Looks.read _).any.wanders (fun v => ?_) _
  cases v with
  | iterator it =>
    refine .bind (Looks.setLocal offset _).any.wanders fun _ => .bind ?_ fun key => .bind ?_ fun _ => .pure _
    · refine .bind Looks.world.wanders fun w => ?_
      split
      · exact .bind (Looks.setLocal place _).any.wanders fun _ => .pure _
      · exact .raise _
    · cases key with
      | some key => exact (Looks.setLocal offset _).any.wanders
      | none => exact Wanders.jump exit
  | _ => exact .bind (Looks.symbolName iteratorId).wanders fun _ => .raise _

theorem iterate (hop : s₀.context.pc.slot? = some (.op .iterate)) :
    Leaves (Popped s₀ (s₀.context.pc.advance 1) 0) Execution.iterate (fun _ => Footprint s₀)
      (Residue s₀) := by
  have hnext : s₀.context.nextIs .iterate := Effects.nextIs_iff.2 hop
  refine .bind (early .fetchSymbol Effects.fetchSymbol) fun itemId => .given fun hslot => ?_
  refine .bind (early .fetchSymbol Effects.fetchSymbol) fun iteratorId => .given fun _ => ?_
  refine .bind (early .fetchBranch Effects.fetchBranch) fun exit => ?_
  refine .bind (early (.place? itemId) (Effects.place?_designates itemId)) fun item => ?_
  refine .given fun hitem => ?_
  cases item with
  | none =>
    refine .bind (early (.symbolName itemId) (Effects.symbolName itemId)) fun name => ?_
    exact .raise fun s hs => hs.untouched.residue_of_early trivial
  | some item =>
    cases hitem item rfl with
    | @frame symbol offset hsymbol hkind =>
      refine ((wander fun s _ => wanders_iterate offset exit iteratorId s).after
        fun _ _ hs => hs.grown.footprint).residual fun f t ht => ?_
      refine ht.grown.residue (fun other key hnames => ?_) fun other hmakes => ?_
      · exact (hnames.ne_frameLocal hslot hsymbol hkind).elim
      · exact absurd (hmakes.opcode_eq hop) (by decide)
    | @global symbol hsymbol hkind =>
      have hnames : s₀.NamesGlobal .iterate itemId := ⟨hnext, hslot, symbol, hsymbol, hkind⟩
      refine .bind (early (.iteratorPlace iteratorId) (Effects.iteratorPlace_frame iteratorId)) ?_
      intro place
      refine .given ?_
      rintro ⟨offset, rfl⟩
      refine .bind (early (.read _) (Effects.read_frame offset)) fun v => ?_
      cases v with
      | iterator it =>
        refine .bind (unbind offset hnames) fun _ => .bind (advance it) fun key => ?_
        exact .bind (bindKey exit key) fun _ => .pure fun _ hs => hs
      | _ =>
        refine .before ?_ fun s hs => hs.2
        refine .bind (early (.symbolName iteratorId) (Effects.symbolName iteratorId)) fun name => ?_
        exact .raise fun s hs => hs.untouched.residue_of_early trivial

end Leaves

end Exceptions

/-! ## Single instructions -/

section Steps

variable {host : Host} {nested : Runner} {s : State} {op : Opcode}

theorem Grown.residue_of_opcode {t : State} {f : Fault} (h : Grown s t)
    (hiterate : ¬ s.context.nextIs .iterate) (hpush : ¬ s.context.nextIs .pushArray) :
    Residue s f t :=
  h.residue (fun _ _ hnames => absurd hnames.opcode hiterate)
    fun _ hmakes => absurd hmakes.opcode hpush

/-- The state in which an opcode is carried out. -/
theorem popped_recorded (op : Opcode) (s : State) (a : CodeAddress)
    (ha : a.program = s.context.pc.program) :
    Popped s a 0 ⟨Execution.recorded op s, { s.context with pc := a }⟩ where
  few := Nat.zero_le _
  there := Nat.zero_le _
  program := ha
  world := ⟨_, rfl⟩
  context := by simp

theorem Leaves.carryOut (invoke : Execution.Caller)
    (hop : s.context.pc.slot? = some (.op op)) (hquiet : ¬ s.Invokes) :
    Leaves (Popped s (s.context.pc.advance 1) 0) (Execution.carryOut invoke op)
      (fun _ => Footprint s) (Residue s) := by
  have hnext : ∀ {op'}, s.context.nextIs op' → op' = op := by
    intro op' hnext
    cases (Effects.nextIs_iff.1 hnext).symm.trans hop
    rfl
  have hgrown : ∀ {x : Execution Outcome}, op ≠ .iterate → op ≠ .pushArray →
      Leaves (Popped s (s.context.pc.advance 1) 0) x (fun _ => Footprint s) (fun _ => Grown s) →
      Leaves (Popped s (s.context.pc.advance 1) 0) x (fun _ => Footprint s) (Residue s) :=
    fun hiterate hpush h => h.residual fun f t ht =>
      ht.residue_of_opcode (fun hn => hiterate (hnext hn).symm) fun hn => hpush (hnext hn).symm
  have hwanders : ∀ {x : Execution Outcome}, op ≠ .iterate → op ≠ .pushArray →
      (∀ t, Popped s (s.context.pc.advance 1) 0 t → WandersAt x t) →
      Leaves (Popped s (s.context.pc.advance 1) 0) x (fun _ => Footprint s) (Residue s) := by
    intro x hiterate hpush h
    refine hgrown hiterate hpush (.residual (.after (.wander h) fun _ t ht => ?_) fun _ t ht => ?_)
    · exact ht.grown.footprint
    · exact ht.grown
  have hlooks : ∀ {x : Execution Outcome} {n : Nat}, op ≠ .iterate → op ≠ .pushArray →
      Looks Fault.Any n x →
      Leaves (Popped s (s.context.pc.advance 1) 0) x (fun _ => Footprint s) (Residue s) :=
    fun hiterate hpush h => hwanders hiterate hpush fun t _ => h.wanders t
  have hset : ∀ {setOperator : Store → ArrayRef → ArrayRef → ArrayRef × Store} (f),
      op ≠ .iterate → op ≠ .pushArray →
      (∀ store left right, ∃ e, setOperator store left right = store.alloc e) →
      Leaves (Popped s (s.context.pc.advance 1) 0) (Execution.arrayOrInt setOperator f)
        (fun _ => Footprint s) (Residue s) :=
    fun f hiterate hpush hset => hgrown hiterate hpush
      ((Leaves.arrayOrInt hset f).before fun _ ht => ht.untouched.grown)
  cases op with
  | returnNothing => exact hwanders nofun nofun fun t _ => Wanders.leave none t
  | returnValue => exact hwanders nofun nofun fun t _ => Wanders.returnValue t
  | pushSymbol =>
    refine hwanders nofun nofun fun t ht => (Looks.pushSymbolAt ?_).wandersAt
    intro id symbol routine hslot hsymbol hkind hvalue
    rw [ht.pc] at hslot
    rw [ht.symbols] at hsymbol
    exact hquiet ⟨id, symbol, routine, hslot, hsymbol, hvalue,
      .inr ⟨Effects.nextIs_iff.2 hop, hkind⟩⟩
  | duplicate => exact hlooks nofun nofun .duplicate
  | assign => exact hgrown nofun nofun (Leaves.assign hop)
  | add | subtract | bitAnd | bitOr => exact hset _ nofun nofun fun _ _ _ => ⟨_, rfl⟩
  | multiply | divide | remainder | power | greater | less | greaterEqual | lessEqual | and | or =>
    exact hlooks nofun nofun (.binaryInt _)
  | negate | increment | decrement | not => exact hlooks nofun nofun (.unaryInt _)
  | equal | notEqual => exact hlooks nofun nofun (.equality _)
  | concat => exact hlooks nofun nofun .concatenate
  | call =>
    refine hwanders nofun nofun fun t ht => Wanders.callAt ?_
    intro id symbol routine hslot hsymbol hkind hvalue
    rw [ht.pc] at hslot
    rw [ht.symbols] at hsymbol
    exact hquiet ⟨id, symbol, routine, hslot, hsymbol, hvalue,
      .inl ⟨Effects.nextIs_iff.2 hop, hkind⟩⟩
  | fetchResult => exact hwanders nofun nofun fun t _ => Wanders.raise _ t
  | branch => exact hwanders nofun nofun fun t _ => Wanders.branch t
  | branchTrue | branchFalse => exact hwanders nofun nofun fun t _ => Wanders.branchIf _ t
  | branchNever => exact hlooks nofun nofun .branchNever
  | element => exact hlooks nofun nofun .element
  | setElement => exact hgrown nofun nofun (Leaves.setElement hop)
  | beginIteration => exact hlooks nofun nofun .beginIteration
  | iterate => exact Leaves.iterate hop
  | contains => exact hlooks nofun nofun .membership
  | deleteElement => exact hgrown nofun nofun (Leaves.deleteElement hop)
  | pushArray => exact Leaves.pushArray hop
  | prepareUpdate => exact hlooks nofun nofun .prepareUpdate
  | pushArgument => exact hlooks nofun nofun .pushArgument
  | pushArgumentCount => exact hlooks nofun nofun .pushArgumentCount
  | pushArgumentArray =>
    exact hgrown nofun nofun (Leaves.pushArgumentArray.before fun _ ht => ht.untouched.grown)

theorem Execution.step_of_operand {slot : Instruction}
    (hslot : s.context.pc.slot? = some slot) (hoperand : ∀ op, slot ≠ .op op) :
    Execution.step host nested s =
      .error (.fault (.malformed (.operandForOpcode slot s.context.pc.index))) s := by
  obtain ⟨w, c⟩ := s
  have hfetch : Context.fetchOpcode c =
      .error (.malformed (.operandForOpcode slot c.pc.index)) c := by
    cases slot with
    | op op => exact absurd rfl (hoperand op)
    | _ => simp only [Context.fetchOpcode, hslot]
  have hcontext : context ⟨w, c⟩ = .ok c ⟨w, c⟩ := rfl
  unfold step
  rw [bind_of_ok hcontext, bind_of_error (transition_of_error hfetch)]

/-- What an instruction that runs no routine leaves behind. -/
theorem Leaves.step (host : Host) (nested : Runner) (hquiet : ¬ s.Invokes) :
    Leaves (fun t => t = s) (Execution.step host nested) (fun _ => Footprint s) (Residue s) := by
  intro t ht
  rw [ht]
  cases hslot : s.context.pc.slot? with
  | none =>
    have hnone : ∀ op, ¬ s.context.nextIs op := by
      intro op hnext
      cases hslot.symm.trans (Effects.nextIs_iff.1 hnext)
    rw [Execution.step_of_end hslot]
    have hleaves := (Leaves.wander fun t _ => Wanders.leave none t) _
      (popped_recorded .returnNothing s s.context.pc rfl)
    cases heq : Execution.returnNothing ⟨Execution.recorded .returnNothing s, s.context⟩ with
    | ok outcome t =>
      rw [show Execution.leave none _ = _ from heq] at hleaves
      exact hleaves.grown.footprint
    | error halt t =>
      rw [show Execution.leave none _ = _ from heq] at hleaves
      obtain ⟨f, hhalt, huntouched⟩ := hleaves
      exact ⟨f, hhalt, huntouched.grown.residue_of_opcode (hnone _) (hnone _)⟩
  | some slot =>
    cases slot with
    | op op =>
      rw [Execution.step_of_opcode hslot]
      exact Leaves.carryOut (Execution.invoke host nested) hslot hquiet _
        (popped_recorded op s (s.context.pc.advance 1) rfl)
    | _ =>
      rw [Execution.step_of_operand hslot nofun]
      exact ⟨_, rfl, (Untouched.refl s).residue_of_early trivial⟩

end Steps

/-! ## Runs -/

/-- All symbols are as they were, except for the values of global variables. -/
structure SymbolTable.SameButGlobals (t t' : SymbolTable) : Prop where
  size : t'.size = t.size
  globals : t'.globals = t.globals
  locals : t'.locals = t.locals
  textCount : t'.textCount = t.textCount
  iteratorCount : t'.iteratorCount = t.iteratorCount
  symbols : ∀ (i : Nat) (symbol : Symbol), t.symbols[i]? = some symbol →
    ∃ symbol' : Symbol, t'.symbols[i]? = some symbol' ∧ symbol'.name = symbol.name ∧
      symbol'.kind = symbol.kind ∧ (symbol.kind ≠ .global → symbol'.value = symbol.value)

namespace SymbolTable.SameButGlobals

variable {t t' t'' : SymbolTable}

theorem refl (t : SymbolTable) : t.SameButGlobals t where
  size := rfl
  globals := rfl
  locals := rfl
  textCount := rfl
  iteratorCount := rfl
  symbols _ symbol h := ⟨symbol, h, rfl, rfl, fun _ => rfl⟩

theorem trans (h : t.SameButGlobals t') (h' : t'.SameButGlobals t'') : t.SameButGlobals t'' where
  size := h'.size.trans h.size
  globals := h'.globals.trans h.globals
  locals := h'.locals.trans h.locals
  textCount := h'.textCount.trans h.textCount
  iteratorCount := h'.iteratorCount.trans h.iteratorCount
  symbols i symbol hsymbol := by
    obtain ⟨symbol', hsymbol', hname, hkind, hvalue⟩ := h.symbols i symbol hsymbol
    obtain ⟨symbol'', hsymbol'', hname', hkind', hvalue'⟩ := h'.symbols i symbol' hsymbol'
    refine ⟨symbol'', hsymbol'', hname'.trans hname, hkind'.trans hkind, fun hne => ?_⟩
    rw [hvalue' (hkind ▸ hne), hvalue hne]

theorem setValue {id : SymbolId} {symbol : Symbol} (hsymbol : t.get? id = some symbol)
    (hkind : symbol.kind = .global) (v : Value) : t.SameButGlobals (t.setValue id v) where
  size := Array.size_modify
  globals := rfl
  locals := rfl
  textCount := rfl
  iteratorCount := rfl
  symbols i other hother := by
    by_cases hi : id.index.toNat = i
    · subst hi
      cases hsymbol.symm.trans hother
      refine ⟨{ symbol with value := v }, ?_, rfl, rfl, fun hne => absurd hkind hne⟩
      simp [SymbolTable.setValue, modify, Array.getElem?_modify, hother]
    · refine ⟨other, ?_, rfl, rfl, fun _ => rfl⟩
      simp [SymbolTable.setValue, modify, Array.getElem?_modify, hi, hother]

end SymbolTable.SameButGlobals

theorem Footprint.sameButGlobals {s t : State} (h : Footprint s t) :
    s.world.symbols.SameButGlobals t.world.symbols := by
  rcases h.symbols with heq | ⟨op, id, v, -, hnames, heq⟩
  · rw [heq]
    exact .refl _
  · obtain ⟨symbol, hsymbol, hkind⟩ := hnames.global
    rw [heq]
    exact .setValue hsymbol hkind v

namespace Host

/-- One instruction that runs no routine of the host, whether it succeeds or fails. -/
inductive QuietStep (host : Host) (s : State) : State → Prop where
  | succeeds {nested : Runner} {outcome : Outcome} {t : State} : ¬ s.Invokes →
      Execution.step host nested s = .ok outcome t → QuietStep host s t
  | fails {nested : Runner} {halt : Halt} {t : State} : ¬ s.Invokes →
      Execution.step host nested s = .error halt t → QuietStep host s t

/-- Any number of such instructions. -/
inductive QuietRun (host : Host) (s : State) : State → Prop where
  | start : QuietRun host s s
  | step {t u : State} : QuietRun host s t → host.QuietStep t u → QuietRun host s u

variable {host : Host} {s t u : State}

theorem QuietStep.footprint (h : host.QuietStep s t) : Footprint s t := by
  cases h with
  | @succeeds nested outcome t hquiet hstep =>
    have hleaves := Leaves.step host nested hquiet s rfl
    rw [hstep] at hleaves
    exact hleaves
  | @fails nested halt t hquiet hstep =>
    have hleaves := Leaves.step host nested hquiet s rfl
    rw [hstep] at hleaves
    obtain ⟨f, -, hresidue⟩ := hleaves
    exact hresidue.footprint

theorem QuietRun.after_step (h : host.QuietRun t u) (hstep : host.QuietStep s t) :
    host.QuietRun s u := by
  induction h with
  | start => exact .step .start hstep
  | step _ hnext ih => exact .step ih hnext

/-- What a run keeps: every symbol apart from the values of global variables, and the documents. -/
theorem QuietRun.keeps (h : host.QuietRun s t) :
    s.world.symbols.SameButGlobals t.world.symbols ∧
      t.context.runTarget = s.context.runTarget ∧ t.context.focusTarget = s.context.focusTarget := by
  induction h with
  | start => exact ⟨.refl _, rfl, rfl⟩
  | step _ hstep ih =>
    have hfootprint := hstep.footprint
    exact ⟨ih.1.trans hfootprint.sameButGlobals, hfootprint.runTarget.trans ih.2.1,
      hfootprint.focusTarget.trans ih.2.2⟩

/-- A slice comes to an instruction that runs a routine, or it is a quiet run. -/
theorem quietRun_of_runSlice {fuel executed : Nat} {w : World} {status : Status}
    (h : host.runSlice fuel executed s.world s.context = some (status, w)) :
    (∃ t, host.QuietRun s t ∧ t.Invokes) ∨
      ∃ t, host.QuietRun s t ∧ t.world = w ∧
        ∀ c reason, status = .preempted c reason → t.context = c := by
  induction fuel generalizing executed s with
  | zero => cases h
  | succ fuel ih =>
    by_cases hinvokes : s.Invokes
    · exact .inl ⟨s, .start, hinvokes⟩
    · rw [runSlice] at h
      cases hstep : Execution.step host (host.runSlice fuel 0) ⟨s.world, s.context⟩ with
      | ok outcome t =>
        have hquiet : host.QuietStep s t := .succeeds hinvokes hstep
        have hrun : host.QuietRun s t := .step .start hquiet
        rw [hstep] at h
        cases outcome with
        | next =>
          cases hover : host.sliceOver (executed + 1) with
          | true =>
            simp only [hover, if_true] at h
            cases h
            exact .inr ⟨t, hrun, rfl, fun c reason heq => by cases heq; rfl⟩
          | false =>
            simp only [hover, Bool.false_eq_true, if_false] at h
            rcases ih h with ⟨u, hu, hinvokes⟩ | ⟨u, hu, hrest⟩
            · exact .inl ⟨u, hu.after_step hquiet, hinvokes⟩
            · exact .inr ⟨u, hu.after_step hquiet, hrest⟩
        | preempt =>
          cases h
          exact .inr ⟨t, hrun, rfl, fun c reason heq => by cases heq; rfl⟩
        | done =>
          cases hpop : Context.pop t.context with
          | ok v c =>
            simp only [hpop] at h
            cases h
            exact .inr ⟨t, hrun, rfl, fun c reason heq => by cases heq⟩
          | error e c =>
            simp only [hpop] at h
            cases h
            exact .inr ⟨t, hrun, rfl, fun c reason heq => by cases heq⟩
      | error halt t =>
        have hrun : host.QuietRun s t := .step .start (.fails hinvokes hstep)
        rw [hstep] at h
        cases halt with
        | fault e =>
          cases h
          exact .inr ⟨t, hrun, rfl, fun c reason heq => by cases heq⟩
        | unfinished => cases h

end Host

/-! ## A macro to try -/

namespace Sample

/-- A macro that stores an element and then goes on with a loop. -/
def storeAndLoop : ProgramRef :=
  ⟨0, ⟨#[.op .setElement, .immediate 1, .op .iterate, .symbol ⟨0⟩, .symbol ⟨1⟩, .immediate 1],
    [⟨1⟩]⟩⟩

/-- The world that it runs in: the item of the loop is a global variable. -/
def loopWorld (item : Value) (elements : Entries Value) (dispatches : Array Dispatch) : World :=
  { World.ofSymbols ⟨#[⟨"item", .global, item⟩, ⟨"iterator", .frameLocal, .int 0⟩],
      [⟨0⟩], [⟨1⟩], 0, 0⟩ with store := ⟨#[elements]⟩, dispatches }

/-- The macro about to store an element; its iterator names a key that the array does not have. -/
def storing : State :=
  ⟨loopWorld (.int 1) .empty #[],
    ⟨#[.address none, .frame none, .int 0, .unset, .iterator ⟨⟨0⟩, some "gone"⟩, .array ⟨0⟩,
        .text "kept", .int 7], 16, 4, ⟨storeAndLoop, 0⟩, none, none⟩⟩

/-- The macro about to go on with the loop. -/
def looping : State :=
  ⟨loopWorld (.int 1) (.ofList [("kept", .int 7)]) #[⟨.setElement, 0, 8⟩],
    ⟨#[.address none, .frame none, .int 0, .unset, .iterator ⟨⟨0⟩, some "gone"⟩], 16, 4,
      ⟨storeAndLoop, 2⟩, none, none⟩⟩

/-- What the loop leaves behind. -/
def lost : State :=
  ⟨loopWorld .unset (.ofList [("kept", .int 7)]) #[⟨.setElement, 0, 8⟩, ⟨.iterate, 2, 5⟩],
    ⟨#[.address none, .frame none, .int 0, .unset, .iterator ⟨⟨0⟩, some "gone"⟩], 16, 4,
      ⟨storeAndLoop, 6⟩, none, none⟩⟩

theorem storing_step (nested : Runner) :
    Execution.step host nested storing = .ok .next looping :=
  rfl

theorem looping_step (nested : Runner) :
    Execution.step host nested looping = .error (.fault (.iteratorLost "gone")) lost :=
  rfl

theorem storing_quiet : ¬ storing.Invokes := by
  rintro ⟨id, symbol, routine, hslot, -⟩
  cases hslot

theorem looping_quiet : ¬ looping.Invokes := by
  rintro ⟨id, symbol, routine, -, -, -, hcall | hread⟩
  · exact absurd hcall.1 (by decide)
  · exact absurd hread.1 (by decide)

end Sample

/-! ## What is shared -/

namespace Host

variable {host : Host} {s t u : State}

/-- A run without routines, successful or failing, keeps every symbol apart from the values of
global variables, and it keeps the documents; so does every slice.  Each of its instructions changes
at most one global variable and one container. -/
theorem quiet_run_footprint (h : host.QuietRun s t) :
    s.world.symbols.SameButGlobals t.world.symbols ∧
      t.context.runTarget = s.context.runTarget ∧ t.context.focusTarget = s.context.focusTarget ∧
      (∀ u, host.QuietStep t u → Footprint t u) ∧
      ∀ fuel executed status w,
        host.runSlice fuel executed t.world t.context = some (status, w) →
        (∃ u, host.QuietRun t u ∧ u.Invokes) ∨
          s.world.symbols.SameButGlobals w.symbols ∧ ∀ c reason, status = .preempted c reason →
            c.runTarget = s.context.runTarget ∧ c.focusTarget = s.context.focusTarget := by
  obtain ⟨hsymbols, hrun, hfocus⟩ := h.keeps
  refine ⟨hsymbols, hrun, hfocus, fun u hstep => hstep.footprint, ?_⟩
  intro fuel executed status w hslice
  rcases quietRun_of_runSlice hslice with hinvokes | ⟨u, hquiet, rfl, hcontext⟩
  · exact .inl hinvokes
  · obtain ⟨hsymbols', hrun', hfocus'⟩ := hquiet.keeps
    refine .inr ⟨hsymbols.trans hsymbols', fun c reason hstatus => ?_⟩
    cases hcontext c reason hstatus
    exact ⟨hrun'.trans hrun, hfocus'.trans hfocus⟩

/-- An instruction stores a value in a global variable, and the next one fails. -/
theorem quiet_run_footprint_in_loop :
    Sample.host.QuietRun Sample.storing Sample.lost ∧
      Sample.storing.world.symbols.SameButGlobals Sample.lost.world.symbols ∧
      Footprint Sample.storing Sample.looping := by
  have hstore : Sample.host.QuietStep Sample.storing Sample.looping :=
    .succeeds Sample.storing_quiet (Sample.storing_step fun _ _ => none)
  have hloop : Sample.host.QuietStep Sample.looping Sample.lost :=
    .fails Sample.looping_quiet (Sample.looping_step fun _ _ => none)
  have hrun : Sample.host.QuietRun Sample.storing Sample.lost := .step (.step .start hstore) hloop
  exact ⟨hrun, (quiet_run_footprint hrun).1,
    (quiet_run_footprint .start).2.2.2.1 Sample.looping hstore⟩

/-- After an instruction that fails, symbols and containers are as they were, with two exceptions: a
loop that has lost its key leaves its item without a value if that is a global variable, and a full
stack leaves a global variable with the array just made for it. -/
theorem failing_step_residue {nested : Runner} {halt : Halt} (hquiet : ¬ s.Invokes)
    (h : Execution.step host nested s = .error halt t) :
    ∃ f, halt = .fault f ∧ Residue s f t := by
  have hleaves := Leaves.step host nested hquiet s rfl
  rw [h] at hleaves
  exact hleaves

/-- A loop whose key is gone fails and leaves its item without a value. -/
theorem failing_step_residue_of_lost_key :
    Sample.looping.NamesGlobal .iterate ⟨0⟩ ∧
      Sample.lost.world.symbols = Sample.looping.world.symbols.setValue ⟨0⟩ .unset ∧
      Sample.lost.world.symbols ≠ Sample.looping.world.symbols := by
  have hnames : Sample.looping.NamesGlobal .iterate ⟨0⟩ :=
    ⟨by decide, rfl, ⟨"item", .global, .int 1⟩, rfl, rfl⟩
  obtain ⟨f, hf, hresidue⟩ :=
    failing_step_residue Sample.looping_quiet (Sample.looping_step fun _ _ => none)
  cases hf
  exact ⟨hnames, hresidue.lost ⟨0⟩ "gone" hnames rfl, by decide⟩

end Host

end MacroMachine
