import MacroMachine.Machine.Run

/-!
# Disciplines

A property that every instruction preserves is preserved for two reasons.  The few operations that
instructions are made of preserve it, and instructions use them in the right order.  The second
reason is the same for all such properties, so it is given once.  A `Discipline` is a property
together with the first reason; the modules after this one show, handler by handler, that every
instruction keeps every discipline.

*Two sides.*  A discipline says where an instruction may be in the code (`control`) and what the
stack may look like (`frames`).  Each side may be empty.  A discipline that is `checked` has no
faults in fetching code, and one that is `framed` has no faults in reading the current frame.  In
return instructions of a framed discipline must find their operands in the current frame, and calls
must have so few arguments that a 32-bit number can count them.

*Values.*  What lies on the stack, in symbols and in arrays is arbitrary, with one exception: a
saved return address must be a place where `control` may go on (`Discipline.Value`).

*Triples.*  `Discipline.Meets` is a Hoare triple for executions.  A halt must leave a world that
keeps the discipline and must not be one of the excluded faults.
-/

namespace MacroMachine

/-! ## Operands -/

/-- What an operand slot is read as. -/
inductive OperandRole where
  | symbol
  /-- A number that must not be negative. -/
  | count
  | flag
  | branch
deriving DecidableEq, Repr

/-- The roles of the operand slots that follow an opcode. -/
def Opcode.roles : Opcode → List OperandRole
  | .pushSymbol | .assign | .beginIteration => [.symbol]
  | .call => [.symbol, .count]
  | .pushArray => [.symbol, .flag]
  | .branch | .branchTrue | .branchFalse | .branchNever => [.branch]
  | .element | .setElement | .deleteElement => [.count]
  | .prepareUpdate => [.flag, .count]
  | .iterate => [.symbol, .symbol, .branch]
  | _ => []

/-- The slot at an address can be read in a role. -/
def OperandRole.Reads (a : CodeAddress) : OperandRole → Prop
  | .symbol => ∃ id, a.slot? = some (.symbol id)
  | .count => ∃ n, a.slot? = some (.immediate n) ∧ 0 ≤ n.toInt
  | .flag => ∃ n, a.slot? = some (.immediate n)
  | .branch => ∃ n, a.slot? = some (.immediate n) ∧ 0 ≤ (a.index : Int) + n.toInt ∧
      (a.index : Int) + n.toInt ≤ a.program.program.size

/-- An instruction can be fetched at an address: an opcode that is no marker, or the end. -/
def CodeAddress.Legible (a : CodeAddress) : Prop :=
  a.index = a.program.program.size ∨ ∃ op, op ≠ .fetchResult ∧ a.slot? = some (.op op)

/-- What lies in the code where an instruction can be fetched. -/
theorem CodeAddress.Legible.opcode {a : CodeAddress} {slot : Instruction} (h : a.Legible)
    (hslot : a.slot? = some slot) : ∃ op, op ≠ .fetchResult ∧ slot = .op op := by
  rcases h with hend | ⟨op, hop, hslot'⟩
  · have hlt := (Array.getElem?_eq_some_iff.1 hslot).1
    exact absurd hend (Nat.ne_of_lt hlt)
  · rw [hslot] at hslot'
    exact ⟨op, hop, Option.some.inj hslot'⟩

/-- The number in the slot at an address, and zero if there is none. -/
def CodeAddress.number (a : CodeAddress) : Int :=
  match a.slot? with
  | some (.immediate n) => n.toInt
  | _ => 0

/-- How many values an instruction takes off the stack, looks at there or passes on as arguments.
Its operands begin at `a`. -/
def Opcode.demand (a : CodeAddress) : Opcode → Nat
  | .returnValue | .duplicate | .assign | .negate | .increment | .decrement | .not | .branchTrue
  | .branchFalse | .beginIteration | .pushArgument => 1
  | .add | .subtract | .multiply | .divide | .remainder | .power | .greater | .less | .greaterEqual
  | .lessEqual | .equal | .notEqual | .bitAnd | .bitOr | .and | .or | .concat | .contains => 2
  | .call => (a.advance 1).number.toNat
  | .element | .deleteElement => a.number.toNat + 1
  | .setElement => a.number.toNat + 2
  | .prepareUpdate => (a.advance 1).number.toNat + 1 + if a.number = 0 then 0 else 1
  | _ => 0

/-- The demand of the next instruction. -/
def Context.demand (c : Context) : Nat :=
  match c.pc.slot? with
  | some (.op op) => op.demand (c.pc.advance 1)
  | _ => 0

/-- An instruction that leaves the current frame. -/
def Opcode.IsReturn (op : Opcode) : Prop :=
  op = .returnNothing ∨ op = .returnValue

/-- The next instruction leaves the current frame; the end of the code does so too. -/
def Context.Returns (c : Context) : Prop :=
  c.pc.slot? = none ∨ c.nextIs .returnNothing ∨ c.nextIs .returnValue

instance (c : Context) : Decidable c.Returns :=
  inferInstanceAs (Decidable (_ ∨ _ ∨ _))

/-- The next instruction finds its operands in the current frame. -/
def Context.Orderly (c : Context) : Prop :=
  c.fp + c.demand ≤ c.stack.size

instance (c : Context) : Decidable c.Orderly :=
  inferInstanceAs (Decidable (_ ≤ _))

/-- If a call whose operands begin at `a` is one of a function, a signed 32-bit number can count its
arguments. -/
def World.Counts (w : World) (a : CodeAddress) : Prop :=
  ∀ id symbol p, a.slot? = some (.symbol id) → w.symbols.get? id = some symbol →
    symbol.kind = .function → symbol.value = .program p → Opcode.call.demand a < 2147483648

/-! ## Faults -/

/-- A fault in fetching an opcode or an operand, or a marker out of place. -/
def Fault.IsFetch : Fault → Prop
  | .malformed (.operandForOpcode _ _) => True
  | .malformed (.symbolExpected _ _) => True
  | .malformed (.immediateExpected _ _) => True
  | .malformed (.negativeCount _) => True
  | .malformed (.branchOutOfRange _) => True
  | .malformed .strayFetch => True
  | _ => False

/-- A fault in reading the bookkeeping of the current frame. -/
def Fault.IsFrame : Fault → Prop
  | .malformed .noFrame => True
  | .malformed (.corruptSlot _ _) => True
  | .malformed .frameBelowStack => True
  | _ => False

theorem Fault.IsFrame.not_isFetch {f : Fault} (h : f.IsFrame) : ¬ f.IsFetch := by
  unfold IsFrame at h
  split at h
  · exact not_false
  · exact not_false
  · exact not_false
  · exact h.elim

/-- A fault of neither sort. -/
def Fault.Ordinary (f : Fault) : Prop :=
  ¬ f.IsFetch ∧ ¬ f.IsFrame

/-- The bookkeeping of a frame can be read. -/
def FrameIntact (stack : Array Value) (fp : Nat) : Prop :=
  ∃ (returnTo : Option CodeAddress) (caller : Option Nat) (n : Int32) (cached : Value),
    stack[fp - 4]? = some (.address returnTo) ∧ stack[fp - 3]? = some (.frame caller) ∧
    stack[fp - 2]? = some (.int n) ∧ stack[fp - 1]? = some cached ∧ 0 ≤ n.toInt ∧
    4 + n.toInt.toNat ≤ fp

/-- The stack once a frame has been made on it. -/
def withFrame (stack : Array Value) (returnTo : Option CodeAddress) (caller : Option Nat)
    (count locals : Nat) : Array Value :=
  stack ++ #[.address returnTo, .frame caller, Value.ofNat count, .unset] ++
    Array.replicate locals .unset

/-! ## What is about -/

/-- Every value of the entries satisfies a predicate. -/
def Entries.All {α : Type} (value : α → Prop) (e : Entries α) : Prop :=
  ∀ entry ∈ e.toList, value entry.2

/-- Every value in the symbols and in the arrays satisfies a predicate, and so does every program
that can be called. -/
structure World.Holds (value : Value → Prop) (program : ProgramRef → Prop) (w : World) : Prop where
  symbols : ∀ symbol ∈ w.symbols.symbols, value symbol.value
  functions : ∀ symbol ∈ w.symbols.symbols, symbol.kind = .function →
    ∀ p, symbol.value = .program p → program p
  containers : ∀ e ∈ w.store.containers, e.All value

/-- Every value that the status shows satisfies a predicate, and so does the place where a suspended
macro goes on. -/
def Status.Holds (value : Value → Prop) (place : CodeAddress → Prop) : Status → Prop
  | .done v => value v
  | .preempted context _ => (∀ v ∈ context.stack, value v) ∧ place context.pc
  | .failed _ => True

/-- The routine hands on only values and programs that satisfy a predicate, as long as it is given
only such values. -/
def Routine.Keeps (value : Value → Prop) (program : ProgramRef → Prop)
    (place : CodeAddress → Prop) : Routine → Prop
  | .finish result => ∀ v, result = .ok v → value v
  | .inspect next => ∀ view, view.world.Holds value program →
      (next view).Keeps value program place
  | .update change next => (∀ w : World, w.Holds value program → (change w).Holds value program) ∧
      next.Keeps value program place
  | .setFocus _ next => next.Keeps value program place
  | .requestPreemption next => next.Keeps value program place
  | .enter p next => program p ∧ ∀ answer, (next answer).Keeps value program place
  | .execute p arguments next => program p ∧ (∀ v ∈ arguments, value v) ∧
      ∀ status, status.Holds value place → (next status).Keeps value program place

/-! ## Disciplines -/

/-- A property of states that the operations of instructions preserve. -/
structure Discipline where
  /-- Fetching code does not fail. -/
  checked : Prop
  /-- Instructions find their operands in the current frame. -/
  framed : Prop
  /-- Reading the current frame does not fail, as the arguments of all frames can be counted. -/
  counted : Prop
  /-- The programs that may be entered. -/
  program : ProgramRef → Prop
  /-- The places in the code at which operands of these roles are yet to be read, and the next
  instruction comes after them.  A marker may come before it if the flag is set. -/
  control : List OperandRole → Bool → CodeAddress → Prop
  /-- What the stack, its limit and the frame pointer may look like. -/
  frames : Array Value → Nat → Nat → Prop
  /-- The frames that may be left. -/
  leaves : Nat → Prop
  enter : ∀ {p}, program p → control [] false ⟨p, 0⟩
  opcode : ∀ {a op}, control [] false a → a.slot? = some (.op op) →
    control op.roles (op == .call) (a.advance 1)
  operand : ∀ {role rest marker a}, control (role :: rest) marker a →
    control rest marker (a.advance 1)
  landing : ∀ {rest marker a n t}, control (.branch :: rest) marker a →
    a.slot? = some (.immediate n) → (a.index : Int) + n.toInt = (t : Nat) →
    t ≤ a.program.program.size → control [] false (a.jump t)
  marked : ∀ {a}, control [] true a → a.slot? = some (.op .fetchResult) →
    control [] false (a.advance 1)
  unmarked : ∀ {a}, control [] true a → a.slot? ≠ some (.op .fetchResult) → control [] false a
  weaken : ∀ {a}, control [] false a → control [] true a
  reads : ∀ {role rest marker a}, checked → control (role :: rest) marker a → role.Reads a
  legible : ∀ {a}, checked → control [] false a → a.Legible
  push : ∀ {stack limit fp} (v : Value), frames stack limit fp → stack.size < limit →
    frames (stack.push v) limit fp
  shrink : ∀ {stack limit fp n}, frames stack limit fp → n ≤ stack.size →
    (framed → fp + n ≤ stack.size) → frames (stack.extract 0 (stack.size - n)) limit fp
  set : ∀ {stack limit fp i} (v : Value), frames stack limit fp → fp ≤ i →
    frames (stack.setIfInBounds i v) limit fp
  cache : ∀ {stack limit fp} (ref : ArrayRef), frames stack limit fp →
    frames (stack.setIfInBounds (fp - 1) (.array ref)) limit fp
  call : ∀ {stack limit fp count locals} (a : CodeAddress), frames stack limit fp →
    count ≤ stack.size → (framed → fp + count ≤ stack.size) → (counted → count < 2147483648) →
    stack.size + (4 + locals) ≤ limit →
    frames (withFrame stack (some a) (some fp) count locals) limit (stack.size + 4)
  leave : ∀ {stack limit fp a caller} {n : Int32}, frames stack limit fp → leaves fp →
    stack[fp - 4]? = some (.address (some a)) → stack[fp - 3]? = some (.frame caller) →
    stack[fp - 2]? = some (.int n) → 0 ≤ n.toInt → 4 + n.toInt.toNat ≤ fp →
    frames (stack.extract 0 (fp - (4 + n.toInt.toNat))) limit (caller.getD 0)
  covers : ∀ {stack limit fp}, framed → frames stack limit fp → fp ≤ stack.size
  intact : ∀ {stack limit fp}, counted → frames stack limit fp → FrameIntact stack fp

namespace Discipline

variable {I : Discipline}

/-- The values that may be about: a saved address must be a place where control may go on. -/
def Value (I : Discipline) (v : MacroMachine.Value) : Prop :=
  ∀ a, v = .address (some a) → I.control [] true a

/-- The worlds that may be about. -/
def World (I : Discipline) (w : MacroMachine.World) : Prop :=
  w.Holds I.Value I.program

/-- The faults that may be raised. -/
def Fault (I : Discipline) (f : MacroMachine.Fault) : Prop :=
  (I.checked → ¬ f.IsFetch) ∧ (I.counted → ¬ f.IsFrame)

theorem fault_of_ordinary {f : MacroMachine.Fault} (h : f.Ordinary) : I.Fault f :=
  ⟨fun _ => h.1, fun _ => h.2⟩

/-- A value that is no saved address may be about. -/
theorem value_of_kind {v : MacroMachine.Value} (h : v.kind ≠ .address) : I.Value v := by
  intro a ha
  subst ha
  exact absurd rfl h

/-- A state that keeps the discipline, wherever it is in an instruction. -/
structure Sound (I : Discipline) (s : State) : Prop where
  world : I.World s.world
  values : ∀ v ∈ s.context.stack, I.Value v
  frames : I.frames s.context.stack s.context.limit s.context.fp

/-- A state between two instructions; a marker may come first if the flag is set. -/
structure Ready (I : Discipline) (marker : Bool) (s : State) : Prop where
  sound : I.Sound s
  control : I.control [] marker s.context.pc

/-- A state within an instruction.  The code goes on at `a`, the current frame has at least `k`
operands, and the symbol `known`, if there is one, is no function. -/
structure At (I : Discipline) (a : CodeAddress) (k : Nat) (known : Option SymbolId) (s : State) :
    Prop where
  sound : I.Sound s
  pc : s.context.pc = a
  operands : I.framed → s.context.fp + k ≤ s.context.stack.size
  assignable : ∀ id, known = some id → ∀ symbol, s.world.symbols.get? id = some symbol →
    symbol.kind ≠ .function

/-- A state in which the next instruction may be executed. -/
structure Enabled (I : Discipline) (s : State) : Prop where
  ready : I.Ready false s
  orderly : I.framed → s.context.Orderly
  few : I.counted → s.context.nextIs .call → s.world.Counts (s.context.pc.advance 1)
  leaves : s.context.Returns → I.leaves s.context.fp

/-! ## Triples -/

/-- From a state that satisfies `pre`, an execution comes to a state that satisfies `post`, or it
halts with a fault that may be raised; the world keeps the discipline. -/
def Meets {α : Type} (I : Discipline) (pre : State → Prop) (x : Execution α)
    (post : α → State → Prop) : Prop :=
  ∀ s, pre s → match x s with
    | .ok a t => post a t
    | .error halt t => I.World t.world ∧ ∀ f, halt = .fault f → I.Fault f

namespace Meets

variable {α β : Type} {pre pre' : State → Prop} {post post' : α → State → Prop} {x : Execution α}

theorem pure {a : α} (h : ∀ s, pre s → post a s) : I.Meets pre (Pure.pure a) post :=
  fun s hs => h s hs

theorem bind {f : α → Execution β} {last : β → State → Prop} (hx : I.Meets pre x post)
    (hf : ∀ a, I.Meets (post a) (f a) last) : I.Meets pre (x >>= f) last := by
  intro s hs
  have h := hx s hs
  show match EStateM.bind x f s with
    | .ok a t => last a t
    | .error halt t => I.World t.world ∧ ∀ f, halt = .fault f → I.Fault f
  unfold EStateM.bind
  split at h
  · next a t heq =>
    rw [heq]
    exact hf a t h
  · next halt t heq =>
    rw [heq]
    exact h

/-- A pure fact of the precondition is a hypothesis. -/
theorem given {fact : Prop} (h : fact → I.Meets pre x post) :
    I.Meets (fun s => fact ∧ pre s) x post :=
  fun s hs => h hs.1 s hs.2

theorem given_also {fact : Prop} {other : State → Prop}
    (h : fact → I.Meets (fun s => other s ∧ pre s) x post) :
    I.Meets (fun s => other s ∧ fact ∧ pre s) x post :=
  fun s hs => h hs.2.1 s ⟨hs.1, hs.2.2⟩

theorem choice {ι : Type} {of : ι → State → Prop} (h : ∀ i, I.Meets (of i) x post) :
    I.Meets (fun s => ∃ i, of i s) x post :=
  fun s ⟨i, hs⟩ => h i s hs

/-- An execution that leaves the world alone keeps what is known of it. -/
theorem keepingWorld (h : I.Meets pre x post) (hx : ∀ s a t, x s = .ok a t → t.world = s.world)
    (fact : MacroMachine.World → Prop) :
    I.Meets (fun s => fact s.world ∧ pre s) x fun a s => fact s.world ∧ post a s := by
  rintro s ⟨hfact, hs⟩
  have hmeets := h s hs
  cases heq : x s with
  | ok a t =>
    rw [heq] at hmeets
    exact ⟨hx s a t heq ▸ hfact, hmeets⟩
  | error halt t =>
    rw [heq] at hmeets
    exact hmeets

theorem before (h : I.Meets pre x post) (hpre : ∀ s, pre' s → pre s) : I.Meets pre' x post :=
  fun s hs => h s (hpre s hs)

theorem after (h : I.Meets pre x post) (hpost : ∀ a s, post a s → post' a s) :
    I.Meets pre x post' := by
  intro s hs
  have hx := h s hs
  split at hx
  · exact hpost _ _ hx
  · exact hx

end Meets

end Discipline

end MacroMachine
