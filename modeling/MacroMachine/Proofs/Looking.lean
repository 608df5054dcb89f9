import MacroMachine.Proofs.Balance
import MacroMachine.Proofs.Effects

/-!
# Instructions that only look

Most of what an instruction does concerns its own context: it takes values off the stack, looks at
symbols and arrays, calculates, and puts values on the stack.  Symbols, arrays and documents stay
as they are, whether it succeeds or fails.  `Looks why n x` says so of an execution `x`, and also how
many slots `x` moves on in the code when it succeeds and why it may fail.

*Slots.*  Executions that succeed move on by a fixed number of slots, and these numbers add up
(`LooksAt.sequence`).  Branches, calls and returns go elsewhere; of them only `Wanders` holds.

*Early faults.*  Two sorts of faults can come after a change: a lost key and a full stack.  All
other faults are early, and the two instructions that change something before they can fail look
only with early faults until then.
-/

namespace MacroMachine

/-- What the macro shares with others and the documents that it acts on are as they were. -/
structure Untouched (s t : State) : Prop where
  symbols : t.world.symbols = s.world.symbols
  store : t.world.store = s.world.store
  runTarget : t.context.runTarget = s.context.runTarget
  focusTarget : t.context.focusTarget = s.context.focusTarget

namespace Untouched

variable {s t u : State}

theorem refl (s : State) : Untouched s s :=
  ⟨rfl, rfl, rfl, rfl⟩

theorem trans (h : Untouched s t) (h' : Untouched t u) : Untouched s u where
  symbols := h'.symbols.trans h.symbols
  store := h'.store.trans h.store
  runTarget := h'.runTarget.trans h.runTarget
  focusTarget := h'.focusTarget.trans h.focusTarget

/-- A change of the context that leaves the documents alone. -/
theorem of_context {w : World} {c c' : Context} (hrun : c'.runTarget = c.runTarget)
    (hfocus : c'.focusTarget = c.focusTarget) : Untouched ⟨w, c⟩ ⟨w, c'⟩ :=
  ⟨rfl, rfl, hrun, hfocus⟩

end Untouched

namespace CodeAddress

@[simp] theorem advance_zero (a : CodeAddress) : a.advance 0 = a :=
  rfl

@[simp] theorem advance_advance (a : CodeAddress) (m n : Nat) :
    (a.advance m).advance n = a.advance (m + n) := by
  simp [advance, Nat.add_assoc]

end CodeAddress

/-- A return that fails leaves the context as it is. -/
theorem Context.popFrame_eq_error {c c' : Context} {f : Fault} (h : popFrame c = .error f c') :
    c' = c := by
  unfold popFrame at h
  split at h
  · cases h
    rfl
  · cases h
    rfl
  · cases h
    rfl
  · split at h
    · cases h
    · cases h
      rfl

namespace Execution

/-- An execution that succeeds has parts that succeed. -/
theorem bind_eq_ok {α β : Type} {x : Execution α} {f : α → Execution β} {s u : State} {b : β}
    (h : (x >>= f) s = .ok b u) : ∃ a t, x s = .ok a t ∧ f a t = .ok b u := by
  cases heq : x s with
  | ok a t =>
    rw [bind_of_ok heq] at h
    exact ⟨a, t, rfl, h⟩
  | error halt t =>
    rw [bind_of_error heq] at h
    cases h

/-- A symbol that is found is in the table, and finding it changes nothing. -/
theorem symbol_eq_ok {id : SymbolId} {symbol : Symbol} {s t : State}
    (h : Execution.symbol id s = .ok symbol t) :
    t = s ∧ s.world.symbols.get? id = some symbol := by
  unfold Execution.symbol at h
  split at h
  · next heq =>
    cases h
    exact ⟨rfl, heq⟩
  · cases h

theorem ofExcept_eq_ok {α : Type} {r : Except Fault α} {a : α} {s t : State}
    (h : ofExcept r s = .ok a t) : t = s ∧ r = .ok a := by
  cases r with
  | ok b =>
    cases h
    exact ⟨rfl, rfl⟩
  | error f => cases h

/-- A symbol operand that was fetched lies in the code, and the code goes on behind it. -/
theorem fetchSymbol_eq_ok {id : SymbolId} {s t : State}
    (h : transition Context.fetchSymbol s = .ok id t) :
    s.context.pc.slot? = some (.symbol id) ∧
      t = { s with context := { s.context with pc := s.context.pc.advance 1 } } := by
  obtain ⟨w, c⟩ := s
  cases hslot : c.pc.slot? with
  | none => simp [transition, Context.fetchSymbol, hslot] at h
  | some slot =>
    cases slot with
    | symbol id' =>
      simp only [transition, Context.fetchSymbol, hslot] at h
      cases h
      exact ⟨rfl, rfl⟩
    | _ => simp [transition, Context.fetchSymbol, hslot] at h

/-- Iterators live in the frame. -/
theorem iteratorPlace_eq_ok {id : SymbolId} {place : Place} {s t : State}
    (h : iteratorPlace id s = .ok place t) :
    t = s ∧ ∃ symbol offset, s.world.symbols.get? id = some symbol ∧
      symbol.frameOffset = .ok offset ∧ place = .frame offset := by
  obtain ⟨symbol, s', hsymbol, hrest⟩ := bind_eq_ok h
  obtain ⟨rfl, hget⟩ := symbol_eq_ok hsymbol
  cases hkind : symbol.kind with
  | frameLocal =>
    simp only [hkind] at hrest
    obtain ⟨offset, s', hoffset, hpure⟩ := bind_eq_ok hrest
    obtain ⟨rfl, hplace⟩ := ofExcept_eq_ok hoffset
    cases hpure
    exact ⟨rfl, symbol, offset, hget, hplace, rfl⟩
  | _ =>
    simp only [hkind] at hrest
    cases hrest

end Execution

/-! ## Faults -/

namespace Fault

/-- Any fault at all. -/
def Any (_ : Fault) : Prop :=
  True

/-- A fault that an instruction raises only before it has changed anything. -/
def Early : Fault → Prop
  | .iteratorLost _ => False
  | .stackOverflow => False
  | _ => True

end Fault

/-! ## Executions that look -/

/-- From the state `s`, an execution only looks.  It moves on by `n` slots or fails for one of some
reasons. -/
def LooksAt {α : Type} (why : Fault → Prop) (n : Nat) (x : Execution α) (s : State) : Prop :=
  match x s with
  | .ok _ t => Untouched s t ∧ t.context.pc = s.context.pc.advance n
  | .error halt t => ∃ f, halt = .fault f ∧ why f ∧ Untouched s t

/-- An execution that only looks. -/
def Looks {α : Type} (why : Fault → Prop) (n : Nat) (x : Execution α) : Prop :=
  ∀ s, LooksAt why n x s

/-- From the state `s`, an execution only looks, and it may go on anywhere. -/
def WandersAt {α : Type} (x : Execution α) (s : State) : Prop :=
  match x s with
  | .ok _ t => Untouched s t
  | .error halt t => ∃ f, halt = .fault f ∧ Untouched s t

/-- An execution that only looks and may go on anywhere. -/
def Wanders {α : Type} (x : Execution α) : Prop :=
  ∀ s, WandersAt x s

section Sequences

variable {α β : Type} {why : Fault → Prop} {x : Execution α} {f : α → Execution β} {s : State}

/-- Slots add up. -/
theorem LooksAt.sequence {m n : Nat} (hx : LooksAt why m x s)
    (hf : ∀ a t, x s = .ok a t → LooksAt why n (f a) t) : LooksAt why (m + n) (x >>= f) s := by
  unfold LooksAt at hx ⊢
  cases heq : x s with
  | ok a t =>
    rw [heq] at hx
    have h := hf a t heq
    unfold LooksAt at h
    rw [Execution.bind_of_ok heq]
    cases heq' : f a t with
    | ok b u =>
      rw [heq'] at h
      refine ⟨hx.1.trans h.1, ?_⟩
      rw [h.2, hx.2, CodeAddress.advance_advance]
    | error halt u =>
      rw [heq'] at h
      obtain ⟨fault, hhalt, hwhy, huntouched⟩ := h
      exact ⟨fault, hhalt, hwhy, hx.1.trans huntouched⟩
  | error halt t =>
    rw [heq] at hx
    rw [Execution.bind_of_error heq]
    exact hx

/-- Executions that look may follow one another. -/
theorem WandersAt.bind (hx : WandersAt x s) (hf : ∀ a t, x s = .ok a t → WandersAt (f a) t) :
    WandersAt (x >>= f) s := by
  unfold WandersAt at hx ⊢
  cases heq : x s with
  | ok a t =>
    rw [heq] at hx
    have h := hf a t heq
    unfold WandersAt at h
    rw [Execution.bind_of_ok heq]
    cases heq' : f a t with
    | ok b u =>
      rw [heq'] at h
      exact hx.trans h
    | error halt u =>
      rw [heq'] at h
      obtain ⟨fault, hhalt, huntouched⟩ := h
      exact ⟨fault, hhalt, hx.trans huntouched⟩
  | error halt t =>
    rw [heq] at hx
    rw [Execution.bind_of_error heq]
    exact hx

/-- What looks and moves on is free to go anywhere. -/
theorem LooksAt.wandersAt {n : Nat} (h : LooksAt Fault.Any n x s) : WandersAt x s := by
  unfold LooksAt at h
  unfold WandersAt
  cases heq : x s with
  | ok a t =>
    rw [heq] at h
    exact h.1
  | error halt t =>
    rw [heq] at h
    obtain ⟨f, hhalt, -, huntouched⟩ := h
    exact ⟨f, hhalt, huntouched⟩

/-- The reasons for a failure may be forgotten. -/
theorem LooksAt.any {n : Nat} (h : LooksAt why n x s) : LooksAt Fault.Any n x s := by
  unfold LooksAt at h ⊢
  cases heq : x s with
  | ok a t =>
    rw [heq] at h
    exact h
  | error halt t =>
    rw [heq] at h
    obtain ⟨f, hhalt, -, huntouched⟩ := h
    exact ⟨f, hhalt, trivial, huntouched⟩

end Sequences

namespace Looks

variable {α β : Type} {why : Fault → Prop} {x : Execution α}

theorem any {n : Nat} (h : Looks why n x) : Looks Fault.Any n x :=
  fun s => (h s).any

theorem wanders {n : Nat} (h : Looks Fault.Any n x) : Wanders x :=
  fun s => (h s).wandersAt

/-- What succeeds has touched nothing. -/
theorem untouched {n : Nat} {s t : State} {a : α} (h : Looks why n x) (heq : x s = .ok a t) :
    Untouched s t := by
  have hs := h s
  rw [LooksAt, heq] at hs
  exact hs.1

theorem pure (a : α) : Looks why 0 (Pure.pure a) :=
  fun s => ⟨.refl s, rfl⟩

/-- A part that reads no operands, and what follows it. -/
theorem bind {n : Nat} {f : α → Execution β} (hx : Looks why 0 x)
    (hf : ∀ a, Looks why n (f a)) : Looks why n (x >>= f) := by
  intro s
  have h := (hx s).sequence fun a t _ => hf a t
  rwa [Nat.zero_add] at h

/-- An operand, and what follows it. -/
theorem operand {n : Nat} {f : α → Execution β} (hx : Looks why 1 x)
    (hf : ∀ a, Looks why n (f a)) : Looks why (n + 1) (x >>= f) := by
  intro s
  have h := (hx s).sequence fun a t _ => hf a t
  rwa [Nat.add_comm] at h

/-! ### Single operations -/

theorem raise {f : Fault} (h : why f) (n : Nat) : Looks why n (Execution.raise f : Execution α) :=
  fun s => ⟨f, rfl, h, .refl s⟩

/-- A transition looks if it moves on in the code and leaves the documents alone. -/
theorem transition {n : Nat} {t : Transition α}
    (h : ∀ c, match t c with
      | .ok _ c' => c'.pc = c.pc.advance n ∧ c'.runTarget = c.runTarget ∧
        c'.focusTarget = c.focusTarget
      | .error f c' => why f ∧ c'.runTarget = c.runTarget ∧ c'.focusTarget = c.focusTarget) :
    Looks why n (Execution.transition t) := by
  rintro ⟨w, c⟩
  have hc := h c
  unfold LooksAt
  cases heq : t c with
  | ok a c' =>
    rw [heq] at hc
    rw [Execution.transition_of_ok heq]
    exact ⟨.of_context hc.2.1 hc.2.2, hc.1⟩
  | error f c' =>
    rw [heq] at hc
    rw [Execution.transition_of_error heq]
    exact ⟨f, rfl, hc.1, .of_context hc.2.1 hc.2.2⟩

/-- What is seen of a context changes nothing, and it fails as seeing does. -/
theorem view {g : Context → Except Fault α} (h : ∀ c f, g c = .error f → why f) :
    Looks why 0 (Execution.view g) := by
  intro s
  rw [LooksAt, Execution.view]
  cases heq : g s.context with
  | ok a => exact ⟨.refl s, rfl⟩
  | error f => exact ⟨f, rfl, h _ f heq, .refl s⟩

theorem viewAny (g : Context → Except Fault α) : Looks Fault.Any 0 (Execution.view g) :=
  view fun _ _ _ => trivial

theorem ofExcept {r : Except Fault α} (h : ∀ f, r = .error f → why f) :
    Looks why 0 (Execution.ofExcept r) := by
  cases r with
  | ok a => exact .pure a
  | error f => exact .raise (h f rfl) 0

theorem convert (r : Except Mismatch α) : Looks Fault.Any 0 (Execution.convert r) := by
  cases r with
  | ok a => exact .pure a
  | error why => exact .raise trivial 0

theorem world : Looks why 0 Execution.world :=
  fun s => ⟨.refl s, rfl⟩

theorem context : Looks why 0 Execution.context :=
  fun s => ⟨.refl s, rfl⟩

theorem symbolName (id : SymbolId) : Looks why 0 (Execution.symbolName id) :=
  fun s => ⟨.refl s, rfl⟩

/-- A missing symbol is an early fault. -/
theorem symbol (id : SymbolId) : Looks Fault.Early 0 (Execution.symbol id) := by
  intro s
  rw [LooksAt, Execution.symbol]
  cases s.world.symbols.get? id with
  | some symbol => exact ⟨.refl s, rfl⟩
  | none => exact ⟨_, rfl, trivial, .refl s⟩

/-! ### Operands -/

/-- An operand of the wrong sort is an early fault. -/
theorem fetchSymbol : Looks Fault.Early 1 (Execution.transition Context.fetchSymbol) := by
  refine .transition fun c => ?_
  unfold Context.fetchSymbol
  cases hslot : c.pc.slot? with
  | some slot => cases slot <;> simp [Fault.Early]
  | none => simp [Fault.Early]

theorem fetchImmediate : Looks Fault.Early 1 (Execution.transition Context.fetchImmediate) := by
  refine .transition fun c => ?_
  unfold Context.fetchImmediate
  cases hslot : c.pc.slot? with
  | some slot => cases slot <;> simp [Fault.Early]
  | none => simp [Fault.Early]

theorem fetchCount : Looks Fault.Early 1 (Execution.transition Context.fetchCount) := by
  rw [Discipline.transition_fetchCount]
  refine .operand fetchImmediate fun n => ?_
  split
  · exact .raise trivial 0
  · exact .pure _

/-- The target of a branch is checked before anything is changed, so this fault is early too. -/
theorem fetchBranch : Looks Fault.Early 1 (Execution.transition Context.fetchBranch) := by
  intro s
  rw [LooksAt, Discipline.transition_fetchBranch s.context.pc s rfl]
  revert s
  suffices h : ∀ a : CodeAddress, Looks Fault.Early 1 (do
      let offset ← Execution.transition Context.fetchImmediate
      if 0 ≤ (a.index : Int) + offset.toInt ∧
          (a.index : Int) + offset.toInt ≤ a.program.program.size then
        Pure.pure ((a.index : Int) + offset.toInt).toNat
      else Execution.raise (.malformed (.branchOutOfRange a.index))) from
    fun s => h s.context.pc s
  intro a
  refine .operand fetchImmediate fun offset => ?_
  split
  · exact .pure _
  · exact .raise trivial 0

theorem skip : Looks why 1 (Execution.transition Context.skip) :=
  .transition fun _ => ⟨rfl, rfl, rfl⟩

/-! ### The stack -/

/-- Only a full stack takes no more values. -/
theorem push_overflow (v : Value) : Looks (· = .stackOverflow) 0 (Execution.push v) := by
  refine .transition fun c => ?_
  by_cases h : c.limit ≤ c.stack.size <;> simp [Context.push, h]

theorem push (v : Value) : Looks Fault.Any 0 (Execution.push v) :=
  (push_overflow v).any

theorem pop : Looks Fault.Any 0 Execution.pop := by
  refine .transition fun c => ?_
  cases h : c.stack.back? <;> simp [Context.pop, h, Fault.Any]

theorem drop (n : Nat) : Looks Fault.Any 0 (Execution.transition (Context.drop n)) := by
  refine .transition fun c => ?_
  by_cases h : n ≤ c.stack.size <;> simp [Context.drop, h, Fault.Any]

theorem popMany (n : Nat) : Looks Fault.Any 0 (Execution.transition (Context.popMany n)) := by
  refine .transition fun c => ?_
  by_cases h : n ≤ c.stack.size <;> simp [Context.popMany, h, Fault.Any]

/-- A local variable lies on the own stack, so writing to it touches nothing that is shared. -/
theorem setLocal (offset : Nat) (v : Value) :
    Looks Fault.Early 0 (Execution.transition (Context.setLocal offset v)) := by
  refine .transition fun c => ?_
  by_cases h : c.fp + offset < c.stack.size <;> simp [Context.setLocal, h, Fault.Early]

theorem setArgumentArray (v : Value) :
    Looks Fault.Any 0 (Execution.transition (Context.setArgumentArray v)) := by
  refine .transition fun c => ?_
  by_cases h : 1 ≤ c.fp ∧ c.fp - 1 < c.stack.size <;> simp [Context.setArgumentArray, h, Fault.Any]

/-- A value goes on the stack, and the instruction is over. -/
theorem pushed (v : Value) :
    Looks Fault.Any 0 (do Execution.push v; return .next : Execution Outcome) :=
  .bind (push v) fun _ => .pure _

/-! ### Variables and elements -/

theorem frameOffset (symbol : Symbol) :
    Looks Fault.Early 0 (Execution.ofExcept symbol.frameOffset) := by
  refine .ofExcept fun f h => ?_
  unfold Symbol.frameOffset at h
  split at h
  · split at h
    · cases h
      exact trivial
    · cases h
  · cases h
    exact trivial

theorem localValue (offset : Nat) :
    Looks Fault.Early 0 (Execution.view (Context.localValue offset)) := by
  refine .view fun c f h => ?_
  unfold Context.localValue at h
  split at h
  · cases h
  · cases h
    exact trivial

/-- Finding the place of a variable fails early. -/
theorem place? (id : SymbolId) : Looks Fault.Early 0 (Execution.place? id) := by
  refine .bind (symbol id) fun symbol => ?_
  split
  · exact .bind (frameOffset symbol) fun offset => .pure _
  · exact .pure _
  · exact .pure _

theorem iteratorPlace (id : SymbolId) : Looks Fault.Early 0 (Execution.iteratorPlace id) := by
  refine .bind (symbol id) fun symbol => ?_
  split
  · exact .bind (frameOffset symbol) fun offset => .pure _
  · exact .raise trivial 0

/-- So does reading it. -/
theorem read (place : Place) : Looks Fault.Early 0 (Execution.read place) := by
  cases place with
  | frame offset => exact localValue offset
  | global id => exact .bind (symbol id) fun symbol => .pure _

theorem peekKey (n : Nat) : Looks Fault.Any 0 (Execution.peekKey n) :=
  .bind (viewAny _) fun _ => convert _

/-- The indexes are all looked at before they are taken off the stack. -/
theorem popKey (n : Nat) : Looks Fault.Any 0 (Execution.popKey n) :=
  .bind (peekKey n) fun key => .bind (drop n) fun _ => .pure key

theorem container (use : ArrayUse) (v : Value) :
    Looks Fault.Any 0 (Execution.container use v) := by
  cases v with
  | array ref => exact .pure ref
  | _ => exact .raise trivial 0

theorem popArray (use : ArrayUse) : Looks Fault.Any 0 (Execution.popArray use) :=
  .bind pop fun v => container use v

/-- An element is read, not made. -/
theorem elementAt (ref : ArrayRef) (key : String) :
    Looks Fault.Any 0 (Execution.elementAt ref key) := by
  refine .bind world fun w => ?_
  split
  · exact .pure _
  · exact .raise trivial 0

theorem popIf (wanted : Bool) : Looks Fault.Any 0 (Execution.popIf wanted) := by
  unfold Execution.popIf
  split
  · exact .bind pop fun v => .pure _
  · exact .pure _

theorem push? (v : Option Value) : Looks Fault.Any 0 (Execution.push? v) := by
  cases v with
  | some v => exact push v
  | none => exact .pure _

/-- Arguments are read from the own frame. -/
theorem argumentValue (id : SymbolId) (index : Int32) :
    Looks Fault.Any 0 (Execution.argumentValue id index) := by
  refine .bind (viewAny _) fun count => ?_
  split
  · exact .pure _
  · split
    · exact .bind (symbolName id) fun _ => .raise trivial 0
    · exact viewAny _

/-! ## Instructions that look -/

/-- Operators on numbers look, whatever they calculate. -/
theorem binaryInt (f : Int32 → Int32 → Except Fault Int32) :
    Looks Fault.Any 0 (Execution.binaryInt f) := by
  refine .bind pop fun _ => .bind (convert _) fun right => ?_
  refine .bind pop fun _ => .bind (convert _) fun left => ?_
  exact .bind (.ofExcept fun _ _ => trivial) fun result => pushed _

theorem unaryInt (f : Int32 → Int32) : Looks Fault.Any 0 (Execution.unaryInt f) :=
  .bind pop fun _ => .bind (convert _) fun _ => pushed _

theorem equality (wanted : Bool) : Looks Fault.Any 0 (Execution.equality wanted) :=
  .bind pop fun _ => .bind pop fun _ => .bind (convert _) fun _ => pushed _

theorem concatenate : Looks Fault.Any 0 Execution.concatenate := by
  refine .bind pop fun _ => .bind (convert _) fun right => ?_
  exact .bind pop fun _ => .bind (convert _) fun left => pushed _

theorem membership : Looks Fault.Any 0 Execution.membership := by
  refine .bind (popArray _) fun ref => .bind pop fun left => .bind world fun w => ?_
  exact .bind (convert _) fun found => pushed _

theorem duplicate : Looks Fault.Any 0 Execution.duplicate :=
  .bind (viewAny _) fun v => pushed v

theorem branchNever : Looks Fault.Any 1 Execution.branchNever :=
  .operand skip fun _ => .pure _

theorem element : Looks Fault.Any 1 Execution.element := by
  refine .operand fetchCount.any fun dimensions => ?_
  dsimp only
  split
  · refine .bind ?_ fun v => pushed v
    exact .bind (popArray _) fun ref => .bind world fun w => .pure _
  · refine .bind ?_ fun v => pushed v
    exact .bind (popKey _) fun key => .bind (popArray _) fun ref => elementAt ref key

/-- The element is read for an update; the array is not changed yet. -/
theorem prepareUpdate : Looks Fault.Any 2 Execution.prepareUpdate := by
  refine .operand fetchImmediate.any fun flag => .operand fetchCount.any fun dimensions => ?_
  refine .bind (popIf _) fun operand => ?_
  split
  · exact .raise trivial 0
  · refine .bind (peekKey _) fun key => .bind (viewAny _) fun v => .bind (container _ v) ?_
    refine fun ref => .bind (elementAt ref key) fun value => .bind (push value) fun _ => ?_
    exact .bind (push? operand) fun _ => .pure _

theorem pushArgument : Looks Fault.Any 0 Execution.pushArgument := by
  refine .bind pop fun _ => .bind (convert _) fun n => .bind (viewAny _) fun count => ?_
  split
  · exact .raise trivial 0
  · exact .bind (viewAny _) fun v => pushed v

theorem pushArgumentCount : Looks Fault.Any 0 Execution.pushArgumentCount :=
  .bind (viewAny _) fun _ => pushed _

/-- The place of an iterator is in the frame, so a loop that begins only looks. -/
theorem beginIteration : Looks Fault.Any 1 Execution.beginIteration := by
  refine .operand fetchSymbol.any fun id s => ?_
  refine LooksAt.sequence (m := 0) (n := 0) ((iteratorPlace id).any s) fun place t hplace => ?_
  obtain ⟨-, -, offset, -, -, rfl⟩ := Execution.iteratorPlace_eq_ok hplace
  exact bind (popArray _) (fun ref => bind world fun w => bind (setLocal offset _).any fun _ =>
    .pure _) t

/-- A variable is read without a routine unless one computes it. -/
theorem symbolValueAt {invoke : Execution.Caller} {id : SymbolId} {s : State}
    (hquiet : ∀ symbol routine, s.world.symbols.get? id = some symbol →
      symbol.kind = .property → symbol.value ≠ .native routine) :
    LooksAt Fault.Any 0 (Execution.symbolValue invoke id) s := by
  refine LooksAt.sequence (m := 0) (n := 0) ((symbol id).any s) fun symbol t hsymbol => ?_
  obtain ⟨rfl, hget⟩ := Execution.symbol_eq_ok hsymbol
  split
  · exact bind (frameOffset symbol).any (fun offset => (localValue offset).any) _
  · exact Looks.pure _ _
  · exact Looks.pure _ _
  · exact bind (convert _) (fun index => argumentValue id index) _
  · next hkind =>
    split
    · next routine hvalue => exact absurd hvalue (hquiet symbol routine hget hkind)
    · exact raise trivial 0 _
  · exact raise trivial 0 _
  · exact raise trivial 0 _

/-- Reading a symbol looks if no routine computes its value. -/
theorem pushSymbolAt {invoke : Execution.Caller} {s : State}
    (hquiet : ∀ id symbol routine, s.context.pc.slot? = some (.symbol id) →
      s.world.symbols.get? id = some symbol → symbol.kind = .property →
      symbol.value ≠ .native routine) :
    LooksAt Fault.Any 1 (Execution.pushSymbol invoke) s := by
  refine LooksAt.sequence (m := 1) (n := 0) (fetchSymbol.any s) fun id t hfetch => ?_
  obtain ⟨hslot, rfl⟩ := Execution.fetchSymbol_eq_ok hfetch
  refine LooksAt.sequence (m := 0) (n := 0) (symbolValueAt fun symbol routine => ?_) ?_
  · exact hquiet id symbol routine hslot
  · intro v t _
    split
    · exact bind (symbolName id) (fun _ => raise trivial 0) t
    · exact pushed v t

end Looks

/-! ## Branches, calls and returns -/

namespace Wanders

variable {α β : Type}

theorem pure (a : α) : Wanders (Pure.pure a) :=
  fun s => .refl s

theorem raise (f : Fault) : Wanders (Execution.raise f : Execution α) :=
  fun s => ⟨f, rfl, .refl s⟩

theorem bind {x : Execution α} {f : α → Execution β} (hx : Wanders x) (hf : ∀ a, Wanders (f a)) :
    Wanders (x >>= f) :=
  fun s => (hx s).bind fun a t _ => hf a t

/-- A transition wanders if it leaves the documents alone. -/
theorem transition {t : Transition α}
    (h : ∀ c, match t c with
      | .ok _ c' => c'.runTarget = c.runTarget ∧ c'.focusTarget = c.focusTarget
      | .error _ c' => c'.runTarget = c.runTarget ∧ c'.focusTarget = c.focusTarget) :
    Wanders (Execution.transition t) := by
  rintro ⟨w, c⟩
  have hc := h c
  unfold WandersAt
  cases heq : t c with
  | ok a c' =>
    rw [heq] at hc
    rw [Execution.transition_of_ok heq]
    exact .of_context hc.1 hc.2
  | error f c' =>
    rw [heq] at hc
    rw [Execution.transition_of_error heq]
    exact ⟨f, rfl, .of_context hc.1 hc.2⟩

theorem jump (target : Nat) : Wanders (Execution.transition (Context.jump target)) :=
  .transition fun _ => ⟨rfl, rfl⟩

/-- A call of a function goes on in its code and touches nothing that is shared. -/
theorem enter (count : Nat) (p : ProgramRef) :
    Wanders (Execution.transition (Context.enter count p)) := by
  refine .transition fun c => ?_
  rcases Context.pushFrame_cases (some c.pc) (some c.fp) count p c with
    ⟨-, -, heq⟩ | ⟨e, -, heq⟩
  · rw [Context.enter, heq]
    exact ⟨rfl, rfl⟩
  · rw [Context.enter, heq]
    exact ⟨rfl, rfl⟩

/-- A return goes on in the code of the caller and touches nothing that is shared. -/
theorem popFrame : Wanders (Execution.transition Context.popFrame) := by
  refine .transition fun c => ?_
  cases heq : Context.popFrame c with
  | ok returnTo c' =>
    obtain ⟨caller, n, -, -, -, -, -, rfl⟩ := Context.popFrame_eq_ok heq
    exact ⟨rfl, rfl⟩
  | error f c' =>
    cases Context.popFrame_eq_error heq
    exact ⟨rfl, rfl⟩

theorem branch : Wanders Execution.branch :=
  .bind Looks.fetchBranch.any.wanders fun target => .bind (jump target) fun _ =>
    .pure _

theorem branchIf (wanted : Bool) : Wanders (Execution.branchIf wanted) := by
  refine .bind Looks.fetchBranch.any.wanders fun target => .bind Looks.pop.wanders fun _ => ?_
  refine .bind (Looks.convert _).wanders fun condition => ?_
  split
  · exact .bind (jump target) fun _ => .pure _
  · exact .pure _

/-- A result is handed over on the own stack. -/
theorem handOver (value : Option Value) : Wanders (Execution.handOver value) := by
  refine .bind Looks.context.wanders fun c => ?_
  split
  · cases value with
    | some v => exact .bind (Looks.push v).wanders fun _ => Looks.skip.wanders
    | none =>
      refine .bind Looks.world.wanders fun w => .bind Looks.context.wanders fun c => ?_
      exact .raise _
  · exact .pure _

/-- A return wanders, also where it ends the macro. -/
theorem leave (value : Option Value) : Wanders (Execution.leave value) := by
  refine .bind popFrame fun returnTo => ?_
  cases returnTo with
  | none => exact .bind (Looks.push _).wanders fun _ => .pure _
  | some a => exact .bind (handOver value) fun _ => .pure _

theorem returnValue : Wanders Execution.returnValue :=
  .bind Looks.pop.wanders fun v => leave (some v)

/-- A call that runs no routine. -/
theorem callAt {invoke : Execution.Caller} {s : State}
    (hquiet : ∀ id symbol routine, s.context.pc.slot? = some (.symbol id) →
      s.world.symbols.get? id = some symbol → symbol.kind = .native →
      symbol.value ≠ .native routine) :
    WandersAt (Execution.call invoke) s := by
  refine WandersAt.bind (Looks.fetchSymbol.any s).wandersAt fun id t hfetch => ?_
  obtain ⟨hslot, rfl⟩ := Execution.fetchSymbol_eq_ok hfetch
  refine WandersAt.bind (Looks.fetchCount.any _).wandersAt fun count t hcount => ?_
  have hsymbols := Looks.fetchCount.untouched hcount
  refine WandersAt.bind ((Looks.symbol id).any t).wandersAt fun symbol u hsymbol => ?_
  obtain ⟨rfl, hget⟩ := Execution.symbol_eq_ok hsymbol
  rw [hsymbols.symbols] at hget
  split
  · next routine hkind hvalue => exact absurd hvalue (hquiet id symbol routine hslot hget hkind)
  · next p _ _ =>
    exact Wanders.bind (enter count p) (fun _ => Wanders.pure _) _
  · exact Wanders.raise _ _

end Wanders

end MacroMachine
