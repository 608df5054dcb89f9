import MacroMachine.Proofs.Frames

/-!
# What an instruction does

An instruction first takes its operands off the stack and looks at what it needs.  Only then does it
change anything, and it can change very little: it can put values on the stack, make containers,
give a value to a variable that it names, change the container that it took off the stack to change
its elements, and jump.  This module says so once, for every instruction that runs no routine of
the host, so that other modules can argue about single changes instead of instructions.

*Two phases.*  `Popped s₀ a n s` says what the first phase comes to: the state is still that at the
beginning, except that some values are off the stack and the code goes on elsewhere.  `During s₀ s`
adds the changes of the second phase one after the other.

*Arrays in variables.*  The relation keeps apart two ways of giving a value to a variable: values
that are no arrays are stored as they are, and an array is always a container made for the purpose.

*Calls and returns.*  These are the only instructions that leave the current frame.  `Becomes` puts
all ways to end an instruction together.
-/

namespace MacroMachine

/-! ## Parts of a state -/

namespace State

/-- The state with another stack. -/
def withStack (s : State) (stack : Array Value) : State :=
  { s with context := { s.context with stack } }

/-- The state with another store. -/
def withStore (s : State) (store : Store) : State :=
  { s with world := { s.world with store } }

/-- The container that is made next. -/
def fresh (s : State) : ArrayRef :=
  ⟨s.world.store.containers.size⟩

/-- The state with one more container. -/
def make (s : State) (e : Entries Value) : State :=
  s.withStore (s.world.store.alloc e).2

theorem size_make (s : State) (e : Entries Value) :
    (s.make e).world.store.containers.size = s.world.store.containers.size + 1 :=
  Array.size_push _

theorem size_alter (s : State) (ref : ArrayRef) (f : Entries Value → Entries Value) :
    (s.withStore (s.world.store.modify ref f)).world.store.containers.size =
      s.world.store.containers.size :=
  Array.size_modify

/-- The state in which a variable has a value. -/
def put : Place → Value → State → State
  | .frame offset, v, s => s.withStack (s.context.stack.setIfInBounds (s.context.fp + offset) v)
  | .global id, v, s =>
    { s with world := { s.world with symbols := s.world.symbols.setValue id v } }

/-- The state in which a variable has a value or, if that is an array, a copy of it. -/
def assign (place : Place) : Value → State → State
  | .array ref, s => (s.make (s.world.store.entries ref)).put place (.array s.fresh)
  | v, s => s.put place v

/-! ## What an instruction refers to -/

/-- The symbol is an operand of the next instruction. -/
def Operand (s : State) (id : SymbolId) : Prop :=
  ∃ op i, s.context.pc.slot? = some (.op op) ∧ op.roles[i]? = some .symbol ∧
    (s.context.pc.advance (i + 1)).slot? = some (.symbol id)

/-- The next instruction names the variable that lives at a place. -/
inductive Names (s : State) : Place → Prop where
  | frame {id : SymbolId} {symbol : Symbol} {offset : Nat} : s.Operand id →
      s.world.symbols.get? id = some symbol → symbol.kind = .frameLocal →
      symbol.frameOffset = .ok offset → Names s (.frame offset)
  | global {id : SymbolId} {symbol : Symbol} : s.Operand id →
      s.world.symbols.get? id = some symbol → symbol.kind = .global → Names s (.global id)

/-- The deepest value that the next instruction takes off the stack. -/
def deepest? (s : State) : Option Value :=
  s.context.stack[s.context.stack.size - s.context.demand]?

/-- The next instruction changes the elements of a container, in one of these ways. -/
inductive Alters (s : State) (ref : ArrayRef) : (Entries Value → Entries Value) → Prop where
  | insert (key : String) (v : Value) : s.context.nextIs .setElement →
      s.deepest? = some (.array ref) → Alters s ref (·.insert key v)
  | erase (key : String) : s.context.nextIs .deleteElement →
      s.deepest? = some (.array ref) → Alters s ref (·.erase key)
  | clear : s.context.nextIs .deleteElement →
      s.deepest? = some (.array ref) → Alters s ref fun _ => .empty

/-- The next instruction runs a routine of the host: it calls one, or reads a variable that one
computes. -/
def Invokes (s : State) : Prop :=
  ∃ id symbol routine, (s.context.pc.advance 1).slot? = some (.symbol id) ∧
    s.world.symbols.get? id = some symbol ∧ symbol.value = .native routine ∧
    (s.context.nextIs .call ∧ symbol.kind = .native ∨
      s.context.nextIs .pushSymbol ∧ symbol.kind = .property)

end State

/-! ## The two phases -/

/-- Of the state at the beginning of an instruction, `n` values are off the stack and the code goes
on at `a`. -/
structure Popped (s₀ : State) (a : CodeAddress) (n : Nat) (s : State) : Prop where
  few : n ≤ s₀.context.demand
  there : n ≤ s₀.context.stack.size
  program : a.program = s₀.context.pc.program
  world : ∃ dispatches, s.world = { s₀.world with dispatches }
  context : s.context = { s₀.context with
    pc := a, stack := s₀.context.stack.extract 0 (s₀.context.stack.size - n) }

/-- The states within an instruction, as long as it has not left its frame. -/
inductive During (s₀ : State) : State → Prop where
  | popped {a : CodeAddress} {n : Nat} {s : State} : Popped s₀ a n s → During s₀ s
  | jump {s : State} (target : Nat) : During s₀ s →
      During s₀ { s with context := { s.context with pc := s.context.pc.jump target } }
  | push {s : State} (v : Value) : During s₀ s → s.context.stack.size < s.context.limit →
      During s₀ (s.withStack (s.context.stack.push v))
  | make {s : State} (e : Entries Value) : During s₀ s → During s₀ (s.make e)
  | store {s : State} {place : Place} {v : Value} : During s₀ s → s₀.Names place →
      v.isArray = false → During s₀ (s.put place v)
  | storeNew {s : State} {place : Place} (e : Entries Value) : During s₀ s → s₀.Names place →
      During s₀ ((s.make e).put place (.array s.fresh))
  | cache {s : State} (e : Entries Value) : During s₀ s → s₀.context.nextIs .pushArgumentArray →
      During s₀ ((s.make e).withStack
        (s.context.stack.setIfInBounds (s.context.fp - 1) (.array s.fresh)))
  | alter {s : State} {ref : ArrayRef} {f : Entries Value → Entries Value} : During s₀ s →
      s₀.Alters ref f → During s₀ (s.withStore (s.world.store.modify ref f))

variable {s₀ : State} {a : CodeAddress} {n : Nat}

/-- An assignment is one of the two ways to give a value to a variable, whatever the value is. -/
theorem During.assign {s : State} {place : Place} (h : During s₀ s) (hplace : s₀.Names place)
    (v : Value) : During s₀ (s.assign place v) := by
  cases v with
  | array ref => exact h.storeNew _ hplace
  | _ => exact h.store hplace rfl

/-- An instruction changes no container that was there before it, unless it alters that one. -/
theorem During.entries {s : State} {ref : ArrayRef} (h : During s₀ s)
    (hexists : ref.index < s₀.world.store.containers.size) (hkept : ∀ f, ¬ s₀.Alters ref f) :
    s.world.store.entries ref = s₀.world.store.entries ref ∧
      s₀.world.store.containers.size ≤ s.world.store.containers.size := by
  have hmake : ∀ {s : State} (e : Entries Value),
      s.world.store.entries ref = s₀.world.store.entries ref ∧
        s₀.world.store.containers.size ≤ s.world.store.containers.size →
      (s.make e).world.store.entries ref = s₀.world.store.entries ref ∧
        s₀.world.store.containers.size ≤ (s.make e).world.store.containers.size := by
    rintro s e ⟨hentries, hsize⟩
    have hne : ref ≠ (s.world.store.alloc e).1 := by
      rintro rfl
      exact absurd hexists (Nat.not_lt_of_le hsize)
    refine ⟨(Store.entries_alloc_of_ne _ e hne).trans hentries, ?_⟩
    rw [State.size_make]
    exact Nat.le_succ_of_le hsize
  induction h with
  | popped hs =>
    obtain ⟨dispatches, hworld⟩ := hs.world
    rw [hworld]
    exact ⟨rfl, Nat.le_refl _⟩
  | jump _ _ ih => exact ih
  | push _ _ _ ih => exact ih
  | make e _ ih => exact hmake e ih
  | @store s place v _ _ _ ih =>
    cases place with
    | frame offset => exact ih
    | global id => exact ih
  | @storeNew s place e _ _ ih =>
    cases place with
    | frame offset => exact hmake e ih
    | global id => exact hmake e ih
  | cache e _ _ ih => exact hmake e ih
  | @alter s altered f _ halters ih =>
    have hne : ref ≠ altered := by
      rintro rfl
      exact hkept f halters
    refine ⟨(Store.entries_modify_of_ne _ f hne).trans ih.1, ?_⟩
    rw [State.size_alter]
    exact ih.2

/-! ## Triples -/

/-- An assertion about states within an instruction. -/
def Within (s₀ : State) (pre : State → Prop) : Prop :=
  ∀ s, pre s → During s₀ s

/-- An assertion about states that a halt may leave behind. -/
def Safe (s₀ : State) (pre : State → Prop) : Prop :=
  ∀ s, pre s → ∃ s₁, During s₀ s₁ ∧ s.world = s₁.world

/-- What holds within an instruction may also be what it leaves when it fails. -/
theorem Within.safe {pre : State → Prop} (h : Within s₀ pre) : Safe s₀ pre :=
  fun s hs => ⟨s, h s hs, rfl⟩

theorem within_during : Within s₀ (During s₀) :=
  fun _ hs => hs

/-- The first phase is a part of the whole. -/
theorem within_popped : Within s₀ (Popped s₀ a n) :=
  fun _ hs => .popped hs

theorem safe_during : Safe s₀ (During s₀) :=
  within_during.safe

theorem safe_popped : Safe s₀ (Popped s₀ a n) :=
  within_popped.safe

/-- From a state that satisfies `pre`, an execution comes to a state that satisfies `post`.  If it
halts, it leaves the world as it was at some point within the instruction. -/
def Effects {α : Type} (s₀ : State) (pre : State → Prop) (x : Execution α)
    (post : α → State → Prop) : Prop :=
  ∀ s, pre s → match x s with
    | .ok a t => post a t
    | .error _ t => ∃ s₁, During s₀ s₁ ∧ t.world = s₁.world

namespace Effects

variable {α β : Type} {pre : State → Prop} {post post' : α → State → Prop} {x : Execution α}

theorem pure {a : α} (h : ∀ s, pre s → post a s) : Effects s₀ pre (Pure.pure a) post :=
  fun s hs => h s hs

/-- Executions follow one another.  If the first part fails, it has left a state that an instruction
may leave. -/
theorem bind {f : α → Execution β} {last : β → State → Prop} (hx : Effects s₀ pre x post)
    (hf : ∀ a, Effects s₀ (post a) (f a) last) : Effects s₀ pre (x >>= f) last := by
  intro s hs
  have h := hx s hs
  show match EStateM.bind x f s with
    | .ok a t => last a t
    | .error _ t => ∃ s₁, During s₀ s₁ ∧ t.world = s₁.world
  rw [EStateM.bind]
  cases heq : x s with
  | ok a t =>
    rw [heq] at h
    exact hf a t h
  | error e t =>
    rw [heq] at h
    exact h

/-- The values that a precondition speaks of may be fixed before the execution. -/
theorem choice {ι : Type} {of : ι → State → Prop} (h : ∀ i, Effects s₀ (of i) x post) :
    Effects s₀ (fun s => ∃ i, of i s) x post :=
  fun s ⟨i, hs⟩ => h i s hs

/-- A pure fact of the precondition is a hypothesis. -/
theorem given {fact : Prop} (h : fact → Effects s₀ pre x post) :
    Effects s₀ (fun s => fact ∧ pre s) x post :=
  fun s hs => h hs.1 s hs.2

/-- What follows from the postcondition. -/
theorem after (h : Effects s₀ pre x post) (hpost : ∀ a s, post a s → post' a s) :
    Effects s₀ pre x post' := by
  intro s hs
  have hx := h s hs
  cases heq : x s with
  | ok a t =>
    rw [heq] at hx
    exact hpost a t hx
  | error e t =>
    rw [heq] at hx
    exact hx

/-! ## Operations that only look -/

section Looking

variable (hpre : Safe s₀ pre)
include hpre

/-- A fault may be raised wherever the instruction can stop. -/
theorem raise (f : Fault) : Effects s₀ pre (Execution.raise f) post :=
  fun s hs => hpre s hs

/-- A transition changes the context only, so a fault leaves the world as it was. -/
theorem transition {t : Transition α}
    (h : ∀ w c a c', pre ⟨w, c⟩ → t c = .ok a c' → post a ⟨w, c'⟩) :
    Effects s₀ pre (Execution.transition t) post := by
  rintro ⟨w, c⟩ hs
  rw [Execution.transition]
  cases heq : t c with
  | ok a c' => exact h w c a c' hs heq
  | error e c' => exact hpre ⟨w, c⟩ hs

theorem view (f : Context → Except Fault α) :
    Effects s₀ pre (Execution.view f) fun _ => pre := by
  intro s hs
  rw [Execution.view]
  cases f s.context with
  | ok a => exact hs
  | error e => exact hpre s hs

theorem ofExcept (r : Except Fault α) :
    Effects s₀ pre (Execution.ofExcept r) fun a s => r = .ok a ∧ pre s := by
  cases r with
  | ok a => exact .pure fun s hs => ⟨rfl, hs⟩
  | error e => exact .raise hpre e

theorem convert (r : Except Mismatch α) :
    Effects s₀ pre (Execution.convert r) fun _ => pre := by
  cases r with
  | ok a => exact .pure fun s hs => hs
  | error why => exact .raise hpre _

/-- A symbol that is looked up is in the table. -/
theorem symbol (id : SymbolId) : Effects s₀ pre (Execution.symbol id)
    fun symbol s => s.world.symbols.get? id = some symbol ∧ pre s := by
  intro s hs
  rw [Execution.symbol]
  cases heq : s.world.symbols.get? id with
  | some symbol => exact ⟨heq, hs⟩
  | none => exact hpre s hs

end Looking

theorem world : Effects s₀ pre Execution.world fun _ => pre :=
  fun _ hs => hs

theorem context : Effects s₀ pre Execution.context fun _ => pre :=
  fun _ hs => hs

theorem symbolName (id : SymbolId) : Effects s₀ pre (Execution.symbolName id) fun _ => pre :=
  fun _ hs => hs

end Effects

/-! ## The first phase -/

namespace Popped

variable {s : State}

theorem symbols (h : Popped s₀ a n s) : s.world.symbols = s₀.world.symbols := by
  obtain ⟨dispatches, hworld⟩ := h.world
  rw [hworld]

theorem store (h : Popped s₀ a n s) : s.world.store = s₀.world.store := by
  obtain ⟨dispatches, hworld⟩ := h.world
  rw [hworld]

/-- The stack is what it was, without the values on top. -/
theorem stack (h : Popped s₀ a n s) :
    s.context.stack = s₀.context.stack.extract 0 (s₀.context.stack.size - n) := by
  rw [h.context]

theorem size (h : Popped s₀ a n s) : s.context.stack.size = s₀.context.stack.size - n := by
  rw [h.stack, Array.size_extract]
  omega

theorem pc (h : Popped s₀ a n s) : s.context.pc = a := by
  rw [h.context]

/-- The code goes on elsewhere in the program. -/
theorem moved (h : Popped s₀ a n s) {b : CodeAddress} (hb : b.program = a.program) :
    Popped s₀ b n { s with context := { s.context with pc := b } } where
  few := h.few
  there := h.there
  program := hb.trans h.program
  world := h.world
  context := by rw [h.context]

/-- More values are taken off. -/
theorem shrink (h : Popped s₀ a n s) {m : Nat} (hfew : n + m ≤ s₀.context.demand)
    (hthere : m ≤ s.context.stack.size) :
    Popped s₀ a (n + m) (s.withStack (s.context.stack.extract 0 (s.context.stack.size - m))) where
  few := hfew
  there := by
    have hn := h.there
    have hsize := h.size
    omega
  program := h.program
  world := h.world
  context := by
    have hcut : min (0 + (s₀.context.stack.size - n - m)) (s₀.context.stack.size - n) =
        s₀.context.stack.size - (n + m) := by omega
    rw [State.withStack, h.size, h.stack, Array.extract_extract, hcut, h.context]

/-- The value on top is the next operand, counted from the top of the stack at the beginning. -/
theorem top (h : Popped s₀ a n s) {v : Value} (hv : s.context.stack.back? = some v) :
    s₀.context.stack[s₀.context.stack.size - (n + 1)]? = some v := by
  have hn := h.there
  rw [Array.back?_eq_getElem?, h.stack, Array.getElem?_extract] at hv
  split at hv
  · rw [Array.size_extract] at hv
    have hindex : 0 + (min (s₀.context.stack.size - n) s₀.context.stack.size - 0 - 1) =
        s₀.context.stack.size - (n + 1) := by omega
    rwa [hindex] at hv
  · cases hv

end Popped

namespace Effects

/-- An operand that is fetched lies in the code, and the code goes on behind it. -/
theorem fetchSymbol : Effects s₀ (Popped s₀ a n) (Execution.transition Context.fetchSymbol)
    fun id s => a.slot? = some (.symbol id) ∧ Popped s₀ (a.advance 1) n s := by
  refine .transition safe_popped fun w c id c' hs hfetch => ?_
  rw [Context.fetchSymbol, hs.pc] at hfetch
  split at hfetch
  · next hslot =>
    cases hfetch
    exact ⟨hslot, hs.moved rfl⟩
  · cases hfetch

theorem fetchImmediate : Effects s₀ (Popped s₀ a n) (Execution.transition Context.fetchImmediate)
    fun m s => a.slot? = some (.immediate m) ∧ Popped s₀ (a.advance 1) n s := by
  refine .transition safe_popped fun w c m c' hs hfetch => ?_
  rw [Context.fetchImmediate, hs.pc] at hfetch
  split at hfetch
  · next hslot =>
    cases hfetch
    exact ⟨hslot, hs.moved rfl⟩
  · cases hfetch

/-- The number that a count stands for. -/
theorem fetchCount : Effects s₀ (Popped s₀ a n) (Execution.transition Context.fetchCount)
    fun m s => m = a.number.toNat ∧ Popped s₀ (a.advance 1) n s := by
  rw [Discipline.transition_fetchCount]
  refine .bind fetchImmediate fun m => .given fun hslot => ?_
  split
  · exact .raise safe_popped _
  · refine .pure fun s hs => ⟨?_, hs⟩
    rw [CodeAddress.number, hslot]

theorem fetchBranch : Effects s₀ (Popped s₀ a n) (Execution.transition Context.fetchBranch)
    fun _ => Popped s₀ (a.advance 1) n := by
  intro s hs
  rw [Discipline.transition_fetchBranch a s hs.pc]
  revert s
  show Effects s₀ _ _ _
  refine .bind fetchImmediate fun m => .given fun _ => ?_
  split
  · exact .pure fun s hs => hs
  · exact .raise safe_popped _

theorem jump (target : Nat) :
    Effects s₀ (Popped s₀ a n) (Execution.transition (Context.jump target))
      fun _ => Popped s₀ (a.jump target) n := by
  refine .transition safe_popped fun w c _ c' hs hjump => ?_
  cases hjump
  rw [show c.pc = a from hs.pc]
  exact hs.moved rfl

theorem skip : Effects s₀ (Popped s₀ a n) (Execution.transition Context.skip)
    fun _ => Popped s₀ (a.advance 1) n := by
  refine .transition safe_popped fun w c _ c' hs hskip => ?_
  cases hskip
  rw [show c.pc = a from hs.pc]
  exact hs.moved rfl

/-- An operand is taken off the stack as long as the instruction still demands one. -/
theorem pop (hfew : n < s₀.context.demand) : Effects s₀ (Popped s₀ a n) Execution.pop
    fun v s => s₀.context.stack[s₀.context.stack.size - (n + 1)]? = some v ∧
      Popped s₀ a (n + 1) s := by
  refine .transition safe_popped fun w c v c' hs hpop => ?_
  rw [Context.pop] at hpop
  split at hpop
  · next hback =>
    cases hpop
    have hpos : 1 ≤ c.stack.size := by
      rw [Array.back?_eq_getElem?] at hback
      have := (Array.getElem?_eq_some_iff.1 hback).1
      omega
    refine ⟨hs.top hback, ?_⟩
    rw [← Array.extract_eq_pop rfl]
    exact hs.shrink hfew hpos
  · cases hpop

theorem drop {m : Nat} (hfew : n + m ≤ s₀.context.demand) :
    Effects s₀ (Popped s₀ a n) (Execution.transition (Context.drop m))
      fun _ => Popped s₀ a (n + m) := by
  refine .transition safe_popped fun w c _ c' hs hdrop => ?_
  rw [Context.drop] at hdrop
  split at hdrop
  · next hthere =>
    cases hdrop
    exact hs.shrink hfew hthere
  · cases hdrop

/-- A symbol is still the one of the beginning. -/
theorem symbol_popped (id : SymbolId) : Effects s₀ (Popped s₀ a n) (Execution.symbol id)
    fun symbol s => s₀.world.symbols.get? id = some symbol ∧ Popped s₀ a n s := by
  refine (symbol safe_popped id).after fun symbol s hs => ⟨?_, hs.2⟩
  rw [← hs.2.symbols]
  exact hs.1

/-- A variable that the instruction names lies at a place that it names. -/
theorem place? {id : SymbolId} (hid : s₀.Operand id) :
    Effects s₀ (Popped s₀ a n) (Execution.place? id)
      fun place s => (∀ p, place = some p → s₀.Names p) ∧ Popped s₀ a n s := by
  refine .bind (symbol_popped id) fun symbol => .given fun hsymbol => ?_
  split
  · next hkind =>
    refine .bind (.ofExcept safe_popped _) fun offset => .given fun hoffset => ?_
    refine .pure fun s hs => ⟨?_, hs⟩
    rintro p ⟨⟩
    exact .frame hid hsymbol hkind hoffset
  · next hkind =>
    refine .pure fun s hs => ⟨?_, hs⟩
    rintro p ⟨⟩
    exact .global hid hsymbol hkind
  · exact .pure fun s hs => ⟨nofun, hs⟩

/-- So does the iterator of a loop. -/
theorem iteratorPlace {id : SymbolId} (hid : s₀.Operand id) :
    Effects s₀ (Popped s₀ a n) (Execution.iteratorPlace id)
      fun place s => s₀.Names place ∧ Popped s₀ a n s := by
  refine .bind (symbol_popped id) fun symbol => .given fun hsymbol => ?_
  split
  · next hkind =>
    refine .bind (.ofExcept safe_popped _) fun offset => .given fun hoffset => ?_
    exact .pure fun s hs => ⟨.frame hid hsymbol hkind hoffset, hs⟩
  · exact .raise safe_popped _

theorem read (place : Place) : Effects s₀ (Popped s₀ a n) (Execution.read place)
    fun _ => Popped s₀ a n := by
  cases place with
  | frame offset => exact .view safe_popped _
  | global id => exact .bind (symbol_popped id) fun _ => .pure fun _ hs => hs.2

theorem peekKey (m : Nat) : Effects s₀ (Popped s₀ a n) (Execution.peekKey m)
    fun _ => Popped s₀ a n :=
  .bind (.view safe_popped _) fun _ => .convert safe_popped _

/-- The indexes of an element are taken off the stack together. -/
theorem popKey {m : Nat} (hfew : n + m ≤ s₀.context.demand) :
    Effects s₀ (Popped s₀ a n) (Execution.popKey m) fun _ => Popped s₀ a (n + m) :=
  .bind (peekKey m) fun _ => .bind (drop hfew) fun _ => .pure fun _ hs => hs

/-- An array that is taken off the stack was an operand. -/
theorem popArray (use : ArrayUse) (hfew : n < s₀.context.demand) :
    Effects s₀ (Popped s₀ a n) (Execution.popArray use)
      fun ref s => s₀.context.stack[s₀.context.stack.size - (n + 1)]? = some (.array ref) ∧
        Popped s₀ a (n + 1) s := by
  refine .bind (pop hfew) fun v => .given fun hv => ?_
  cases v with
  | array ref => exact .pure fun s hs => ⟨hv, hs⟩
  | _ => exact .raise safe_popped _

theorem container (use : ArrayUse) (v : Value) :
    Effects s₀ (Popped s₀ a n) (Execution.container use v) fun _ => Popped s₀ a n := by
  cases v with
  | array ref => exact .pure fun _ hs => hs
  | _ => exact .raise safe_popped _

theorem elementAt (ref : ArrayRef) (key : String) :
    Effects s₀ (Popped s₀ a n) (Execution.elementAt ref key) fun _ => Popped s₀ a n := by
  refine .bind world fun w => ?_
  split
  · exact .pure fun s hs => hs
  · exact .raise safe_popped _

/-! ## The second phase -/

section Changing

variable {pre : State → Prop}

/-- A value goes on the stack if there is room. -/
theorem push (hpre : Within s₀ pre) (v : Value) :
    Effects s₀ pre (Execution.push v) fun _ => During s₀ := by
  refine .transition hpre.safe fun w c _ c' hs hpush => ?_
  rw [Context.push] at hpush
  split at hpush
  · cases hpush
  · next hroom =>
    cases hpush
    exact (hpre _ hs).push v (Nat.lt_of_not_le hroom)

/-- A state in which a container has just been made. -/
def Made (pre : State → Prop) (e : Entries Value) (ref : ArrayRef) (s : State) : Prop :=
  ∃ t, pre t ∧ ref = t.fresh ∧ s = t.make e

theorem within_made (hpre : Within s₀ pre) {e : Entries Value} {ref : ArrayRef} :
    Within s₀ (Made pre e ref) := by
  rintro s ⟨t, ht, -, rfl⟩
  exact (hpre t ht).make e

/-- A container is made. -/
theorem alloc (e : Entries Value) :
    Effects s₀ pre (Execution.withStore (·.alloc e)) (Made pre e) :=
  fun s hs => ⟨s, hs, rfl, rfl⟩

/-- Writing is putting if it works. -/
theorem write_cases (place : Place) (v : Value) (s : State) :
    Execution.write place v s = .ok () (s.put place v) ∨
      ∃ e, Execution.write place v s = .error e s := by
  cases place with
  | frame offset =>
    by_cases hlt : s.context.fp + offset < s.context.stack.size
    · refine .inl ?_
      simp only [Execution.write, Execution.transition, Context.setLocal, if_pos hlt]
      rfl
    · refine .inr ⟨.fault (.malformed (.localOutsideFrame offset)), ?_⟩
      simp only [Execution.write, Execution.transition, Context.setLocal, if_neg hlt]
  | global id =>
    cases heq : s.world.symbols.get? id with
    | some symbol =>
      refine .inl ?_
      simp only [Execution.write, Bind.bind, EStateM.bind, Execution.symbol, heq]
      rfl
    | none =>
      refine .inr ⟨.fault (.malformed (.unknownSymbol id)), ?_⟩
      simp only [Execution.write, Bind.bind, EStateM.bind, Execution.symbol, heq]

/-- A value that is no array is stored as it is. -/
theorem write (hpre : Within s₀ pre) {place : Place} {v : Value} (hplace : s₀.Names place)
    (hv : v.isArray = false) : Effects s₀ pre (Execution.write place v) fun _ => During s₀ := by
  intro s hs
  rcases write_cases place v s with heq | ⟨e, heq⟩
  · rw [heq]
    exact (hpre s hs).store hplace hv
  · rw [heq]
    exact ⟨s, hpre s hs, rfl⟩

/-- An array is stored only in a container that was made for it. -/
theorem write_made (hpre : Within s₀ pre) {place : Place} {e : Entries Value} {ref : ArrayRef}
    (hplace : s₀.Names place) :
    Effects s₀ (Made pre e ref) (Execution.write place (.array ref)) fun _ => During s₀ := by
  rintro s ⟨t, ht, rfl, rfl⟩
  rcases write_cases place (.array t.fresh) (t.make e) with heq | ⟨halt, heq⟩
  · rw [heq]
    exact (hpre t ht).storeNew e hplace
  · rw [heq]
    exact ⟨t.make e, (hpre t ht).make e, rfl⟩

/-- A state in which a value has just been copied for an assignment. -/
def Copied (pre : State → Prop) (v copied : Value) (s : State) : Prop :=
  match v with
  | .array ref => ∃ t, pre t ∧ copied = .array t.fresh ∧ s = t.make (t.world.store.entries ref)
  | _ => copied = v ∧ v.isArray = false ∧ pre s

theorem within_copied (hpre : Within s₀ pre) {v copied : Value} :
    Within s₀ (Copied pre v copied) := by
  intro s hs
  cases v with
  | array ref =>
    obtain ⟨t, ht, -, rfl⟩ := hs
    exact (hpre t ht).make _
  | _ => exact hpre s hs.2.2

/-- A value is copied if it is an array. -/
theorem copyForAssignment (v : Value) :
    Effects s₀ pre (Execution.withStore (·.copyForAssignment v)) (Copied pre v) := by
  intro s hs
  cases v with
  | array ref => exact ⟨s, hs, rfl, rfl⟩
  | _ => exact ⟨rfl, rfl, hs⟩

/-- Copying a value and writing the copy is an assignment. -/
theorem write_copied (hpre : Within s₀ pre) {place : Place} {v copied : Value} :
    Effects s₀ (Copied pre v copied) (Execution.write place copied)
      fun _ t => ∃ s, pre s ∧ t = s.assign place v := by
  intro s hs
  have hwithin := within_copied hpre s hs
  rcases write_cases place copied s with heq | ⟨e, heq⟩
  · rw [heq]
    cases v with
    | array ref =>
      obtain ⟨t, ht, rfl, rfl⟩ := hs
      exact ⟨t, ht, rfl⟩
    | _ =>
      obtain ⟨rfl, -, hs⟩ := hs
      exact ⟨s, hs, rfl⟩
  · rw [heq]
    exact ⟨s, hwithin, rfl⟩

/-- The container that the instruction alters. -/
theorem modifyStore (hpre : Within s₀ pre) {ref : ArrayRef} {f : Entries Value → Entries Value}
    (halters : s₀.Alters ref f) :
    Effects s₀ pre (Execution.modifyStore (·.modify ref f)) fun _ => During s₀ :=
  fun s hs => (hpre s hs).alter halters

theorem push? (v : Option Value) :
    Effects s₀ (During s₀) (Execution.push? v) fun _ => During s₀ := by
  cases v with
  | some v => exact push within_during v
  | none => exact .pure fun _ hs => hs

end Changing

/-! ## Instructions that stay in their frame -/

/-- The instruction is over, and the macro goes on in the same frame. -/
def Stays (s₀ : State) (outcome : Outcome) (s : State) : Prop :=
  outcome = .next ∧ During s₀ s

/-- Where an instruction is over, it goes on with the next one. -/
theorem finish {pre : State → Prop} (hpre : Within s₀ pre) :
    Effects s₀ pre (Pure.pure .next) (Stays s₀) :=
  .pure fun s hs => ⟨rfl, hpre s hs⟩

theorem pushed {pre : State → Prop} (hpre : Within s₀ pre) (v : Value) :
    Effects s₀ pre (do Execution.push v; return .next) (Stays s₀) :=
  .bind (push hpre v) fun _ => finish within_during

section Operators

variable (hfew : 2 ≤ s₀.context.demand)
include hfew

/-- Both operands are off the stack before the result is calculated. -/
theorem binaryInt (f : Int32 → Int32 → Except Fault Int32) :
    Effects s₀ (Popped s₀ a 0) (Execution.binaryInt f) (Stays s₀) := by
  refine .bind (pop (by omega)) fun _ => .given fun _ => .bind (.convert safe_popped _) ?_
  refine fun right => .bind (pop (by omega)) fun _ => .given fun _ => ?_
  refine .bind (.convert safe_popped _) fun left => ?_
  refine .bind (.ofExcept safe_popped _) fun result => .given fun _ => ?_
  exact pushed within_popped _

/-- The set operators make a container of what two others hold. -/
theorem arrayOrInt {setOperator : Store → ArrayRef → ArrayRef → ArrayRef × Store}
    (hset : ∀ store left right, ∃ e, setOperator store left right = store.alloc e)
    (f : Int32 → Int32 → Int32) :
    Effects s₀ (Popped s₀ a 0) (Execution.arrayOrInt setOperator f) (Stays s₀) := by
  refine .bind (.view safe_popped _) fun top => ?_
  split
  · refine .bind (.view safe_popped _) fun second => ?_
    split
    · refine .bind (pop (by omega)) fun _ => .given fun _ => .bind (.convert safe_popped _) ?_
      refine fun right => .bind (pop (by omega)) fun _ => .given fun _ => ?_
      refine .bind (.convert safe_popped _) fun left => ?_
      have hmade : Effects s₀ (Popped s₀ a 2)
          (Execution.withStore fun store => setOperator store left right) fun _ => During s₀ := by
        intro s hs
        obtain ⟨e, he⟩ := hset s.world.store left right
        rw [Execution.withStore, he]
        exact (within_popped s hs).make e
      exact .bind hmade fun result => pushed within_during _
    · exact .raise safe_popped _
  · exact binaryInt hfew _

/-- Two values are compared, and the answer goes on the stack. -/
theorem equality (wanted : Bool) :
    Effects s₀ (Popped s₀ a 0) (Execution.equality wanted) (Stays s₀) := by
  refine .bind (pop (by omega)) fun right => .given fun _ => ?_
  refine .bind (pop (by omega)) fun left => .given fun _ => ?_
  exact .bind (.convert safe_popped _) fun same => pushed within_popped _

theorem concatenate : Effects s₀ (Popped s₀ a 0) Execution.concatenate (Stays s₀) := by
  refine .bind (pop (by omega)) fun _ => .given fun _ => .bind (.convert safe_popped _) ?_
  refine fun right => .bind (pop (by omega)) fun _ => .given fun _ => ?_
  exact .bind (.convert safe_popped _) fun left => pushed within_popped _

theorem membership : Effects s₀ (Popped s₀ a 0) Execution.membership (Stays s₀) := by
  refine .bind (popArray _ (by omega)) fun ref => .given fun _ => ?_
  refine .bind (pop (by omega)) fun left => .given fun _ => .bind world fun w => ?_
  exact .bind (.convert safe_popped _) fun found => pushed within_popped _

end Operators

theorem unaryInt (hfew : 1 ≤ s₀.context.demand) (f : Int32 → Int32) :
    Effects s₀ (Popped s₀ a 0) (Execution.unaryInt f) (Stays s₀) := by
  refine .bind (pop (by omega)) fun _ => .given fun _ => ?_
  exact .bind (.convert safe_popped _) fun n => pushed within_popped _

theorem duplicate : Effects s₀ (Popped s₀ a 0) Execution.duplicate (Stays s₀) :=
  .bind (.view safe_popped _) fun v => pushed within_popped v

/-! ### Branches -/

theorem branch : Effects s₀ (Popped s₀ a 0) Execution.branch (Stays s₀) :=
  .bind fetchBranch fun target => .bind (jump target) fun _ => finish within_popped

/-- The condition is taken off the stack before the jump. -/
theorem branchIf (hfew : 1 ≤ s₀.context.demand) (wanted : Bool) :
    Effects s₀ (Popped s₀ a 0) (Execution.branchIf wanted) (Stays s₀) := by
  refine .bind fetchBranch fun target => .bind (pop (by omega)) fun _ => .given fun _ => ?_
  refine .bind (.convert safe_popped _) fun condition => ?_
  split
  · exact .bind (jump target) fun _ => finish within_popped
  · exact finish within_popped

theorem branchNever : Effects s₀ (Popped s₀ a 0) Execution.branchNever (Stays s₀) :=
  .bind skip fun _ => finish within_popped

/-! ### Arguments -/

/-- Arguments are read where they lie below the frame. -/
theorem argumentValue (id : SymbolId) (index : Int32) :
    Effects s₀ (Popped s₀ a n) (Execution.argumentValue id index) fun _ => Popped s₀ a n := by
  refine .bind (.view safe_popped _) fun count => ?_
  split
  · exact .pure fun _ hs => hs
  · split
    · exact .bind (symbolName id) fun _ => .raise safe_popped _
    · exact .view safe_popped _

theorem pushArgument (hfew : 1 ≤ s₀.context.demand) :
    Effects s₀ (Popped s₀ a 0) Execution.pushArgument (Stays s₀) := by
  refine .bind (pop (by omega)) fun _ => .given fun _ => .bind (.convert safe_popped _) ?_
  refine fun n => .bind (.view safe_popped _) fun count => ?_
  split
  · exact .raise safe_popped _
  · exact .bind (.view safe_popped _) fun v => pushed within_popped v

theorem pushArgumentCount : Effects s₀ (Popped s₀ a 0) Execution.pushArgumentCount (Stays s₀) :=
  .bind (.view safe_popped _) fun _ => pushed within_popped _

/-- The array that was just made for the arguments is kept in the frame. -/
theorem setArgumentArray {pre : State → Prop} (hpre : Within s₀ pre)
    (hnext : s₀.context.nextIs .pushArgumentArray) {e : Entries Value} {ref : ArrayRef} :
    Effects s₀ (Made pre e ref) (Execution.transition (Context.setArgumentArray (.array ref)))
      fun _ => During s₀ := by
  refine .transition (within_made hpre).safe ?_
  rintro w c _ c' ⟨t, ht, rfl, heq⟩ hset
  rw [Context.setArgumentArray] at hset
  split at hset
  · cases hset
    have hw : w = (t.make e).world := congrArg State.world heq
    have hc : c = t.context := congrArg State.context heq
    subst hw hc
    exact (hpre t ht).cache e hnext
  · cases hset

theorem pushArgumentArray (hnext : s₀.context.nextIs .pushArgumentArray) :
    Effects s₀ (Popped s₀ a 0) Execution.pushArgumentArray (Stays s₀) := by
  refine .bind (.view safe_popped _) fun cached => ?_
  dsimp only
  split
  · exact pushed within_popped _
  · refine .bind (?_ : Effects s₀ _ _ fun _ => During s₀) fun array => pushed within_during array
    refine .bind (.view safe_popped _) fun arguments => .bind (alloc _) fun ref => ?_
    exact .bind (setArgumentArray within_popped hnext) fun _ => .pure fun _ hs => hs

/-! ### Variables -/

/-- A symbol that no routine computes is only read. -/
theorem symbolValue {invoke : Execution.Caller} {id : SymbolId}
    (hquiet : ∀ symbol routine, s₀.world.symbols.get? id = some symbol →
      symbol.kind = .property → symbol.value ≠ .native routine) :
    Effects s₀ (Popped s₀ a n) (Execution.symbolValue invoke id) fun _ => Popped s₀ a n := by
  refine .bind (symbol_popped id) fun symbol => .given fun hsymbol => ?_
  split
  · refine .bind (.ofExcept safe_popped _) fun offset => .given fun _ => ?_
    exact .view safe_popped _
  · exact .pure fun _ hs => hs
  · exact .pure fun _ hs => hs
  · exact .bind (.convert safe_popped _) fun index => argumentValue id index
  · next hkind =>
    split
    · next routine hvalue => exact absurd hvalue (hquiet symbol routine hsymbol hkind)
    · exact .raise safe_popped _
  · exact .raise safe_popped _
  · exact .raise safe_popped _

/-- A symbol slot of the instruction is one of its operands. -/
theorem operand {op : Opcode} {id : SymbolId} (i : Nat)
    (hop : s₀.context.pc.slot? = some (.op op)) (hrole : op.roles[i]? = some .symbol)
    (hslot : (s₀.context.pc.advance (i + 1)).slot? = some (.symbol id)) : s₀.Operand id :=
  ⟨op, i, hop, hrole, hslot⟩

theorem demand_eq {op : Opcode} (hop : s₀.context.pc.slot? = some (.op op)) :
    s₀.context.demand = op.demand (s₀.context.pc.advance 1) := by
  rw [Context.demand, hop]

theorem nextIs_iff {c : Context} {op : Opcode} : c.nextIs op ↔ c.pc.slot? = some (.op op) :=
  beq_iff_eq

theorem pushSymbol {invoke : Execution.Caller} (hop : s₀.context.pc.slot? = some (.op .pushSymbol))
    (hquiet : ¬ s₀.Invokes) :
    Effects s₀ (Popped s₀ (s₀.context.pc.advance 1) 0) (Execution.pushSymbol invoke)
      (Stays s₀) := by
  refine .bind fetchSymbol fun id => .given fun hslot => ?_
  refine .bind (symbolValue fun symbol routine hsymbol hkind hvalue => hquiet ?_) fun v => ?_
  · exact ⟨id, symbol, routine, hslot, hsymbol, hvalue, .inr ⟨nextIs_iff.2 hop, hkind⟩⟩
  · split
    · exact .bind (symbolName id) fun _ => .raise safe_popped _
    · exact pushed within_popped v

/-- What an assignment comes to. -/
def Assigns (s₀ : State) (outcome : Outcome) (t : State) : Prop :=
  outcome = .next ∧ ∃ place v s, s₀.Names place ∧
    s₀.context.stack[s₀.context.stack.size - 1]? = some v ∧
    Popped s₀ (s₀.context.pc.advance 2) 1 s ∧ t = s.assign place v

/-- What an assignment does, in full. -/
theorem assign (hop : s₀.context.pc.slot? = some (.op .assign)) :
    Effects s₀ (Popped s₀ (s₀.context.pc.advance 1) 0) Execution.assign (Assigns s₀) := by
  have hfew : s₀.context.demand = 1 := demand_eq hop
  refine .bind fetchSymbol fun id => .given fun hslot => ?_
  refine .bind (place? (operand 0 hop rfl hslot)) fun place => .given fun hplace => ?_
  cases place with
  | none => exact .bind (symbol_popped id) fun symbol => .given fun _ => .raise safe_popped _
  | some place =>
    have hnames := hplace place rfl
    refine .bind (pop (by omega)) fun v => .given fun hv => ?_
    refine .bind (copyForAssignment v) fun copied => .bind (write_copied within_popped) fun _ => ?_
    refine .pure ?_
    rintro t ⟨s, hs, rfl⟩
    exact ⟨rfl, place, v, s, hnames, hv, hs, rfl⟩

/-- An assignment stays in its frame. -/
theorem stays_of_assigns {outcome : Outcome} {t : State} (h : Assigns s₀ outcome t) :
    Stays s₀ outcome t := by
  obtain ⟨houtcome, place, v, s, hnames, -, hs, rfl⟩ := h
  exact ⟨houtcome, (During.popped hs).assign hnames v⟩

theorem makeArray {place : Place} (hplace : s₀.Names place) :
    Effects s₀ (Popped s₀ a n) (Execution.makeArray place) fun _ => During s₀ :=
  .bind (alloc _) fun _ => .bind (write_made within_popped hplace) fun _ => .pure fun _ hs => hs

/-- A variable that is to hold an array is given an empty one if it has none. -/
theorem arrayOf {place : Place} (hplace : s₀.Names place) (id : SymbolId) (makeEmpty : Bool) :
    Effects s₀ (Popped s₀ a n) (Execution.arrayOf id place makeEmpty) fun _ => During s₀ := by
  refine .bind (read place) fun v => ?_
  split
  · split
    · exact makeArray hplace
    · exact .bind (symbolName id) fun _ => .raise safe_popped _
  · exact .pure fun _ hs => .popped hs

theorem pushArray (hop : s₀.context.pc.slot? = some (.op .pushArray)) :
    Effects s₀ (Popped s₀ (s₀.context.pc.advance 1) 0) Execution.pushArray (Stays s₀) := by
  refine .bind fetchSymbol fun id => .given fun hslot => ?_
  refine .bind fetchImmediate fun flag => .given fun _ => ?_
  refine .bind (place? (operand 0 hop rfl hslot)) fun place => .given fun hplace => ?_
  cases place with
  | none => exact .bind (symbolName id) fun _ => .raise safe_popped _
  | some place => exact .bind (arrayOf (hplace place rfl) id _) fun v => pushed within_during v

/-! ### Elements -/

theorem popSize (hfew : n < s₀.context.demand) :
    Effects s₀ (Popped s₀ a n) Execution.popSize fun _ => Popped s₀ a (n + 1) :=
  .bind (popArray _ hfew) fun _ => .given fun _ => .bind world fun _ => .pure fun _ hs => hs

theorem popElement {dimensions : Nat} (hfew : n + dimensions < s₀.context.demand) :
    Effects s₀ (Popped s₀ a n) (Execution.popElement dimensions)
      fun _ => Popped s₀ a (n + dimensions + 1) := by
  refine .bind (popKey (Nat.le_of_lt hfew)) fun key => ?_
  exact .bind (popArray _ hfew) fun ref => .given fun _ => elementAt ref key

theorem element (hop : s₀.context.pc.slot? = some (.op .element)) :
    Effects s₀ (Popped s₀ (s₀.context.pc.advance 1) 0) Execution.element (Stays s₀) := by
  have hfew : s₀.context.demand = (s₀.context.pc.advance 1).number.toNat + 1 := demand_eq hop
  refine .bind fetchCount fun dimensions => .given fun hdimensions => ?_
  dsimp only
  split
  · exact .bind (popSize (by omega)) fun v => pushed within_popped v
  · exact .bind (popElement (by omega)) fun v => pushed within_popped v

/-- The new value, the indexes and the array are off the stack before the element is set. -/
theorem setElement (hop : s₀.context.pc.slot? = some (.op .setElement)) :
    Effects s₀ (Popped s₀ (s₀.context.pc.advance 1) 0) Execution.setElement (Stays s₀) := by
  have hfew : s₀.context.demand = (s₀.context.pc.advance 1).number.toNat + 2 := demand_eq hop
  refine .bind fetchCount fun dimensions => .given fun hdimensions => ?_
  refine .bind (pop (by omega)) fun v => .given fun _ => ?_
  split
  · exact .raise safe_popped _
  · refine .bind (popKey (by omega)) fun key => .bind (popArray _ (by omega)) fun ref => ?_
    refine .given fun href => .bind (copyForAssignment v) fun copied => ?_
    have hdeepest : s₀.deepest? = some (.array ref) := by
      rw [State.deepest?, ← href]
      congr 2
      omega
    have halters := State.Alters.insert key copied (nextIs_iff.2 hop) hdeepest
    exact .bind (modifyStore (within_copied within_popped) halters) fun _ => finish within_during

/-- One element is deleted, or all of them where there are no indexes. -/
theorem deleteElement (hop : s₀.context.pc.slot? = some (.op .deleteElement)) :
    Effects s₀ (Popped s₀ (s₀.context.pc.advance 1) 0) Execution.deleteElement (Stays s₀) := by
  have hfew : s₀.context.demand = (s₀.context.pc.advance 1).number.toNat + 1 := demand_eq hop
  refine .bind fetchCount fun dimensions => .given fun hdimensions => ?_
  have hdeepest : ∀ {ref : ArrayRef}, s₀.context.stack[s₀.context.stack.size -
      (dimensions + 1)]? = some (.array ref) → s₀.deepest? = some (.array ref) := by
    intro ref href
    rw [State.deepest?, hfew, ← hdimensions, href]
  split
  · next hzero =>
    subst hzero
    refine .bind (popArray _ (by omega)) fun ref => .given fun href => ?_
    have halters := State.Alters.clear (nextIs_iff.2 hop) (hdeepest href)
    exact .bind (modifyStore within_popped halters) fun _ => finish within_during
  · refine .bind (popKey (by omega)) fun key => .bind (popArray _ (by omega)) fun ref => ?_
    refine .given fun href => ?_
    rw [Nat.zero_add] at href
    have halters := State.Alters.erase key (nextIs_iff.2 hop) (hdeepest href)
    exact .bind (modifyStore within_popped halters) fun _ => finish within_during

theorem popIf (wanted : Bool) (hfew : n < s₀.context.demand) :
    Effects s₀ (Popped s₀ a n) (Execution.popIf wanted)
      fun _ s => ∃ m, Popped s₀ a m s := by
  rw [Execution.popIf]
  split
  · refine .bind (pop hfew) fun v => .given fun _ => ?_
    exact .pure fun s hs => ⟨n + 1, hs⟩
  · exact .pure fun s hs => ⟨n, hs⟩

/-- The indexes and the array stay on the stack, and the element comes on top of them. -/
theorem prepareUpdate (hop : s₀.context.pc.slot? = some (.op .prepareUpdate)) :
    Effects s₀ (Popped s₀ (s₀.context.pc.advance 1) 0) Execution.prepareUpdate (Stays s₀) := by
  have hfew : 0 < s₀.context.demand := by
    rw [demand_eq hop, Opcode.demand]
    omega
  refine .bind fetchImmediate fun flag => .given fun _ => ?_
  refine .bind fetchCount fun dimensions => .given fun _ => ?_
  refine .bind (popIf _ hfew) fun operand => .choice fun m => ?_
  split
  · exact .raise safe_popped _
  · refine .bind (peekKey _) fun key => .bind (.view safe_popped _) fun v => ?_
    refine .bind (container _ v) fun ref => .bind (elementAt ref key) fun value => ?_
    refine .bind (push within_popped value) fun _ => .bind (push? operand) fun _ => ?_
    exact finish within_during

/-! ### Iteration -/

theorem beginIteration (hop : s₀.context.pc.slot? = some (.op .beginIteration)) :
    Effects s₀ (Popped s₀ (s₀.context.pc.advance 1) 0) Execution.beginIteration (Stays s₀) := by
  have hfew : s₀.context.demand = 1 := demand_eq hop
  refine .bind fetchSymbol fun id => .given fun hslot => ?_
  refine .bind (iteratorPlace (operand 0 hop rfl hslot)) fun place => .given fun hplace => ?_
  refine .bind (popArray _ (by omega)) fun ref => .given fun _ => .bind world fun w => ?_
  exact .bind (write within_popped hplace rfl) fun _ => finish within_during

/-- The iterator goes on by one key and is stored again. -/
theorem advance {place : Place} (hplace : s₀.Names place) (it : Iterator) :
    Effects s₀ (During s₀) (Execution.advance place it) fun _ => During s₀ := by
  refine .bind world fun w => ?_
  split
  · exact .bind (write within_during hplace rfl) fun _ => .pure fun _ hs => hs
  · exact .raise safe_during _

/-- The item gets the key, or the loop is left. -/
theorem bindKey {item : Place} (hitem : s₀.Names item) (exit : Nat) (key : Option String) :
    Effects s₀ (During s₀) (Execution.bindKey item exit key) fun _ => During s₀ := by
  cases key with
  | some key => exact write within_during hitem rfl
  | none =>
    show Effects s₀ (During s₀) (Execution.transition (Context.jump exit)) _
    refine .transition safe_during fun w c _ c' hs hjump => ?_
    cases hjump
    exact hs.jump exit

/-- The item is cleared before the iterator is asked for a key, so a loop that fails leaves it
without a value. -/
theorem iterate (hop : s₀.context.pc.slot? = some (.op .iterate)) :
    Effects s₀ (Popped s₀ (s₀.context.pc.advance 1) 0) Execution.iterate (Stays s₀) := by
  refine .bind fetchSymbol fun itemId => .given fun hitem => ?_
  refine .bind fetchSymbol fun iteratorId => .given fun hiterator => ?_
  refine .bind fetchBranch fun exit => ?_
  refine .bind (place? (operand 0 hop rfl hitem)) fun item => .given fun hitem => ?_
  cases item with
  | none => exact .bind (symbolName itemId) fun _ => .raise safe_popped _
  | some item =>
    have hitem := hitem item rfl
    refine .bind (iteratorPlace (operand 1 hop rfl hiterator)) fun place => .given fun hplace => ?_
    refine .bind (read place) fun v => ?_
    cases v with
    | iterator it =>
      refine .bind (write within_popped hitem rfl) fun _ => .bind (advance hplace it) fun key => ?_
      exact .bind (bindKey hitem exit key) fun _ => finish within_during
    | _ => exact .bind (symbolName iteratorId) fun _ => .raise safe_popped _

end Effects

/-! ## Calls and returns -/

/-- The frame of the instruction has been left for that of the caller, who may have got a value. -/
inductive Returned (s₀ t : State) : Prop where
  | mk {a b : CodeAddress} {s : State} {n : Nat} {caller : Option Nat} {m : Int32} :
      Popped s₀ a n s → s.context.stack[s.context.fp - 4]? = some (.address (some b)) →
      s.context.stack[s.context.fp - 3]? = some (.frame caller) →
      s.context.stack[s.context.fp - 2]? = some (.int m) → t.world = s.world →
      t.context.fp = caller.getD 0 → t.context.pc.program = b.program →
      (∀ i < s.context.fp - (4 + m.toInt.toNat), t.context.stack[i]? = s.context.stack[i]?) →
      s.context.fp - (4 + m.toInt.toNat) ≤ t.context.stack.size → Returned s₀ t

/-- A return changes nothing but the context. -/
theorem Returned.world {t : State} (h : Returned s₀ t) :
    t.world.symbols = s₀.world.symbols ∧ t.world.store = s₀.world.store := by
  obtain ⟨hs, -, -, -, hworld, -⟩ := h
  rw [hworld]
  exact ⟨hs.symbols, hs.store⟩

/-- The frame of the instruction was the outermost one. -/
inductive Ended (s₀ t : State) : Prop where
  | mk {a : CodeAddress} {n : Nat} {s : State} : Popped s₀ a n s → t.world = s.world → Ended s₀ t

/-- How an instruction that runs no routine can end. -/
inductive Becomes (s₀ : State) : Outcome → State → Prop where
  | stays {t : State} : During s₀ t → Becomes s₀ .next t
  /-- A function is called; its frame lies over the arguments. -/
  | enters {a : CodeAddress} {s : State} (p : ProgramRef) : s₀.context.nextIs .call →
      Popped s₀ a 0 s → s₀.context.demand ≤ s.context.stack.size →
      Becomes s₀ .next ⟨s.world, { s.context with
        stack := withFrame s.context.stack (some a) (some s.context.fp) s₀.context.demand
          p.program.locals.length
        fp := s.context.stack.size + 4
        pc := ⟨p, 0⟩ }⟩
  | returns {t : State} : s₀.context.Returns → Returned s₀ t → Becomes s₀ .next t
  | ends {t : State} : s₀.context.Returns → Ended s₀ t → Becomes s₀ .done t

namespace Effects

theorem becomes_of_stays {outcome : Outcome} {t : State} (h : Stays s₀ outcome t) :
    Becomes s₀ outcome t := by
  obtain ⟨rfl, hduring⟩ := h
  exact .stays hduring

/-- A call makes a frame over its arguments, which are all that it demands. -/
theorem enter {count : Nat} (hcall : s₀.context.nextIs .call)
    (hcount : count = s₀.context.demand) (p : ProgramRef) :
    Effects s₀ (Popped s₀ a 0) (Execution.transition (Context.enter count p))
      fun _ => Becomes s₀ .next := by
  refine .transition safe_popped fun w c _ c' hs henter => ?_
  rcases Context.pushFrame_cases (some c.pc) (some c.fp) count p c with
    ⟨hthere, -, heq⟩ | ⟨e, -, heq⟩
  · rw [Context.enter, heq] at henter
    cases henter
    rw [show c.pc = a from hs.pc, hcount]
    exact .enters p hcall hs (hcount ▸ hthere)
  · rw [Context.enter, heq] at henter
    cases henter

/-- A call of a function enters it; a call of a routine is left out here. -/
theorem call {invoke : Execution.Caller} (hop : s₀.context.pc.slot? = some (.op .call))
    (hquiet : ¬ s₀.Invokes) :
    Effects s₀ (Popped s₀ (s₀.context.pc.advance 1) 0) (Execution.call invoke) (Becomes s₀) := by
  have hcall : s₀.context.nextIs .call := nextIs_iff.2 hop
  have hfew : s₀.context.demand = (s₀.context.pc.advance 2).number.toNat := demand_eq hop
  refine .bind fetchSymbol fun id => .given fun hslot => ?_
  refine .bind fetchCount fun count => .given fun hcount => ?_
  refine .bind (symbol_popped id) fun symbol => .given fun hsymbol => ?_
  split
  · next routine hkind hvalue =>
    exact absurd ⟨id, symbol, routine, hslot, hsymbol, hvalue, .inl ⟨hcall, hkind⟩⟩ hquiet
  · next p _ _ =>
    exact .bind (enter hcall (hcount.trans hfew.symm) p) fun _ => .pure fun _ hs => hs
  · exact .raise safe_popped _

theorem safe_returned : Safe s₀ (Returned s₀) := by
  rintro t ⟨hs, -, -, -, hworld, -⟩
  exact ⟨_, .popped hs, hworld⟩

theorem safe_ended : Safe s₀ (Ended s₀) := by
  rintro t ⟨hs, hworld⟩
  exact ⟨_, .popped hs, hworld⟩

/-- What the saved slots of the frame say decides where the code goes on. -/
theorem popFrame : Effects s₀ (Popped s₀ a n) (Execution.transition Context.popFrame)
    fun returnTo t => match returnTo with
      | some _ => Returned s₀ t
      | none => Ended s₀ t := by
  refine .transition safe_popped fun w c returnTo c' hs hpop => ?_
  obtain ⟨caller, m, haddress, hframe, hcount, -, -, rfl⟩ := Context.popFrame_eq_ok hpop
  cases returnTo with
  | none => exact .mk hs rfl
  | some b =>
    have hlt := (Array.getElem?_eq_some_iff.1 hcount).1
    refine .mk hs haddress hframe hcount rfl rfl rfl (fun i hi => extract_below hi) ?_
    simp only [Array.size_extract]
    omega

/-- What is put on the caller's stack lies over what the function has left there. -/
theorem push_returned (v : Value) :
    Effects s₀ (Returned s₀) (Execution.push v) fun _ => Returned s₀ := by
  refine .transition safe_returned fun w c _ c' hs hpush => ?_
  obtain ⟨hs, haddress, hframe, hcount, hworld, hfp, hprogram, hbelow, hsize⟩ := hs
  rw [Context.push] at hpush
  split at hpush
  · cases hpush
  · cases hpush
    refine .mk hs haddress hframe hcount hworld hfp hprogram (fun i hi => ?_) ?_
    · rw [← hbelow i hi, Array.getElem?_push, if_neg (Nat.ne_of_lt (Nat.lt_of_lt_of_le hi hsize))]
    · rw [Array.size_push]
      exact Nat.le_succ_of_le hsize

theorem skip_returned :
    Effects s₀ (Returned s₀) (Execution.transition Context.skip) fun _ => Returned s₀ := by
  refine .transition safe_returned fun w c _ c' hs hskip => ?_
  obtain ⟨hs, haddress, hframe, hcount, hworld, hfp, hprogram, hbelow, hsize⟩ := hs
  cases hskip
  exact .mk hs haddress hframe hcount hworld hfp hprogram hbelow hsize

theorem handOver (value : Option Value) :
    Effects s₀ (Returned s₀) (Execution.handOver value) fun _ => Returned s₀ := by
  refine .bind context fun c => ?_
  split
  · cases value with
    | some v => exact .bind (push_returned v) fun _ => skip_returned
    | none => exact .bind world fun w => .bind context fun c => .raise safe_returned _
  · exact .pure fun _ hs => hs

/-- A return, with or without a value. -/
theorem leave (hreturns : s₀.context.Returns) (value : Option Value) :
    Effects s₀ (Popped s₀ a n) (Execution.leave value) (Becomes s₀) := by
  refine .bind popFrame fun returnTo => ?_
  cases returnTo with
  | some b => exact .bind (handOver value) fun _ => .pure fun _ hs => .returns hreturns hs
  | none =>
    refine .bind (?_ : Effects s₀ _ _ fun _ => Ended s₀) fun _ => ?_
    · refine .transition safe_ended fun w c _ c' hs hpush => ?_
      obtain ⟨hs, hworld⟩ := hs
      exact .mk hs hworld
    · exact .pure fun _ hs => .ends hreturns hs

theorem returnValue (hop : s₀.context.pc.slot? = some (.op .returnValue)) :
    Effects s₀ (Popped s₀ a 0) Execution.returnValue (Becomes s₀) := by
  have hfew : s₀.context.demand = 1 := demand_eq hop
  exact .bind (pop (by omega)) fun v => .given fun _ =>
    leave (.inr (.inr (nextIs_iff.2 hop))) _

/-! ## Single instructions -/

/-- One case for every opcode. -/
theorem carryOut {invoke : Execution.Caller} {op : Opcode}
    (hop : s₀.context.pc.slot? = some (.op op)) (hquiet : ¬ s₀.Invokes) :
    Effects s₀ (Popped s₀ (s₀.context.pc.advance 1) 0) (Execution.carryOut invoke op)
      (Becomes s₀) := by
  have hstays : ∀ {x : Execution Outcome},
      Effects s₀ (Popped s₀ (s₀.context.pc.advance 1) 0) x (Stays s₀) →
      Effects s₀ (Popped s₀ (s₀.context.pc.advance 1) 0) x (Becomes s₀) :=
    fun h => h.after fun _ _ => becomes_of_stays
  have hfew := demand_eq hop
  have hone : op.demand (s₀.context.pc.advance 1) = 1 → 1 ≤ s₀.context.demand := fun h => by omega
  have htwo : op.demand (s₀.context.pc.advance 1) = 2 → 2 ≤ s₀.context.demand := fun h => by omega
  cases op with
  | returnNothing => exact leave (.inr (.inl (nextIs_iff.2 hop))) none
  | returnValue => exact returnValue hop
  | pushSymbol => exact hstays (pushSymbol hop hquiet)
  | duplicate => exact hstays duplicate
  | assign => exact (assign hop).after fun _ _ hs => becomes_of_stays (stays_of_assigns hs)
  | add => exact hstays (arrayOrInt (htwo rfl) (fun _ _ _ => ⟨_, rfl⟩) _)
  | subtract => exact hstays (arrayOrInt (htwo rfl) (fun _ _ _ => ⟨_, rfl⟩) _)
  | bitAnd => exact hstays (arrayOrInt (htwo rfl) (fun _ _ _ => ⟨_, rfl⟩) _)
  | bitOr => exact hstays (arrayOrInt (htwo rfl) (fun _ _ _ => ⟨_, rfl⟩) _)
  | multiply | divide | remainder | power | greater | less | greaterEqual | lessEqual | and | or =>
    exact hstays (binaryInt (htwo rfl) _)
  | negate | increment | decrement | not => exact hstays (unaryInt (hone rfl) _)
  | equal | notEqual => exact hstays (equality (htwo rfl) _)
  | concat => exact hstays (concatenate (htwo rfl))
  | call => exact call hop hquiet
  | fetchResult => exact .raise safe_popped _
  | branch => exact hstays branch
  | branchTrue | branchFalse => exact hstays (branchIf (hone rfl) _)
  | branchNever => exact hstays branchNever
  | element => exact hstays (element hop)
  | setElement => exact hstays (setElement hop)
  | beginIteration => exact hstays (beginIteration hop)
  | iterate => exact hstays (iterate hop)
  | contains => exact hstays (membership (htwo rfl))
  | deleteElement => exact hstays (deleteElement hop)
  | pushArray => exact hstays (pushArray hop)
  | prepareUpdate => exact hstays (prepareUpdate hop)
  | pushArgument => exact hstays (pushArgument (hone rfl))
  | pushArgumentCount => exact hstays pushArgumentCount
  | pushArgumentArray => exact hstays (pushArgumentArray (nextIs_iff.2 hop))

/-- The next opcode.  The end of the code reads as a return without a value. -/
theorem fetchOpcode : Effects s₀ (Popped s₀ s₀.context.pc 0)
    (Execution.transition Context.fetchOpcode) fun op s =>
      s₀.context.pc.slot? = some (.op op) ∧ Popped s₀ (s₀.context.pc.advance 1) 0 s ∨
        s₀.context.pc.slot? = none ∧ op = .returnNothing ∧ Popped s₀ s₀.context.pc 0 s := by
  refine .transition safe_popped fun w c op c' hs hfetch => ?_
  rw [Context.fetchOpcode, hs.pc] at hfetch
  split at hfetch
  · next hend =>
    cases hfetch
    exact .inr ⟨hend, rfl, hs⟩
  · next hop =>
    cases hfetch
    exact .inl ⟨hop, hs.moved rfl⟩
  · cases hfetch

theorem record (op : Opcode) (position : Nat) :
    Effects s₀ (Popped s₀ a n) (Execution.record op position) fun _ => Popped s₀ a n := by
  intro s hs
  obtain ⟨old, hworld⟩ := hs.world
  exact ⟨hs.few, hs.there, hs.program, ⟨_, by rw [hworld]⟩, hs.context⟩

/-- A step does what its opcode does, or returns at the end of the code. -/
theorem step_of {host : Host} {nested : Runner} {post : Outcome → State → Prop}
    (hop : ∀ op, s₀.context.pc.slot? = some (.op op) →
      Effects s₀ (Popped s₀ (s₀.context.pc.advance 1) 0)
        (Execution.carryOut (Execution.invoke host nested) op) post)
    (hend : s₀.context.pc.slot? = none →
      Effects s₀ (Popped s₀ s₀.context.pc 0) Execution.returnNothing post) :
    Effects s₀ (Popped s₀ s₀.context.pc 0) (Execution.step host nested) post := by
  refine .bind context fun c => .bind fetchOpcode fun op => ?_
  rintro s (⟨hslot, hs⟩ | ⟨hslot, rfl, hs⟩)
  · exact Effects.bind (record op c.pc.index) (fun _ => hop op hslot) s hs
  · exact Effects.bind (record .returnNothing c.pc.index) (fun _ => hend hslot) s hs

/-- What an instruction does that runs no routine. -/
theorem step (host : Host) (nested : Runner) (hquiet : ¬ s₀.Invokes) :
    Effects s₀ (Popped s₀ s₀.context.pc 0) (Execution.step host nested) (Becomes s₀) :=
  step_of (fun _ hop => carryOut hop hquiet) fun hend => leave (.inl hend) none

end Effects

theorem popped_self (s : State) : Popped s s.context.pc 0 s where
  few := Nat.zero_le _
  there := Nat.zero_le _
  program := rfl
  world := ⟨_, rfl⟩
  context := by simp

section Steps

variable {host : Host} {nested : Runner} {s t : State} {outcome : Outcome}

/-- What an instruction does that runs no routine. -/
theorem becomes_of_step (h : Execution.step host nested s = .ok outcome t) (hquiet : ¬ s.Invokes) :
    Becomes s outcome t := by
  have heffects := Effects.step host nested hquiet s (popped_self s)
  rw [h] at heffects
  exact heffects

/-- What an assignment does. -/
theorem assigns_of_step (h : Execution.step host nested s = .ok outcome t)
    (hassign : s.context.nextIs .assign) : Effects.Assigns s outcome t := by
  have hslot := Effects.nextIs_iff.1 hassign
  have heffects : Effects s (Popped s s.context.pc 0) (Execution.step host nested)
      (Effects.Assigns s) := by
    refine Effects.step_of (fun op hop => ?_) fun hend => ?_
    · cases hslot.symm.trans hop
      exact Effects.assign hslot
    · cases hslot.symm.trans hend
  have hassigns := heffects s (popped_self s)
  rw [h] at hassigns
  exact hassigns

/-- What it has done if it halts. -/
theorem during_of_halt {halt : Halt} (h : Execution.step host nested s = .error halt t)
    (hquiet : ¬ s.Invokes) : ∃ s₁, During s s₁ ∧ t.world = s₁.world := by
  have heffects := Effects.step host nested hquiet s (popped_self s)
  rw [h] at heffects
  exact heffects

end Steps

end MacroMachine
