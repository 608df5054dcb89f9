import MacroMachine.Program.Listing
import MacroMachine.Proofs.Looking

/-!
# Operands in the code

Two tables say which operand slots follow an opcode: `Opcode.operands`, which listings and images go
by, and the code of the instructions themselves, which fetch their operands one by one.  This
module shows that the two agree.

*Fetching.*  Every instruction fetches all its operands before it does anything else (`Fetches`).  So
if the code does not provide them, the instruction fails and leaves everything as it was but for
its place in the code.  The branch that is never taken does not look at its operand.

*Moving on.*  An instruction that succeeds goes on after its operands, unless it transfers control
(`State.Transfers`).  A call of a routine also takes the marker after it, if there is one.  A listing
steps over the same slots, so whoever executes a program line by line stays on the lines of its
listing.
-/

namespace MacroMachine

/-! ## What the code provides -/

/-- Whether a slot holds an operand of a kind. -/
def OperandKind.fits : OperandKind → Option Instruction → Bool
  | .symbol, some (.symbol _) => true
  | .immediate, some (.immediate _) => true
  | .branchOffset, some (.immediate _) => true
  | _, _ => false

/-- Whether the slots from an address on hold operands of these kinds. -/
def CodeAddress.provides (a : CodeAddress) : List OperandKind → Bool
  | [] => true
  | kind :: kinds => kind.fits a.slot? && (a.advance 1).provides kinds

/-- An execution that begins by fetching operands of these kinds. -/
inductive Fetches {α : Type} : List OperandKind → Execution α → Prop where
  | all (x : Execution α) : Fetches [] x
  | symbol {kinds : List OperandKind} {f : SymbolId → Execution α} :
      (∀ id, Fetches kinds (f id)) →
      Fetches (.symbol :: kinds) (Execution.transition Context.fetchSymbol >>= f)
  | flag {kinds : List OperandKind} {f : Int64 → Execution α} : (∀ n, Fetches kinds (f n)) →
      Fetches (.immediate :: kinds) (Execution.transition Context.fetchImmediate >>= f)
  | count {kinds : List OperandKind} {f : Nat → Execution α} : (∀ n, Fetches kinds (f n)) →
      Fetches (.immediate :: kinds) (Execution.transition Context.fetchCount >>= f)
  | branch {kinds : List OperandKind} {f : Nat → Execution α} : (∀ target, Fetches kinds (f target)) →
      Fetches (.branchOffset :: kinds) (Execution.transition Context.fetchBranch >>= f)

/-- Every instruction fetches its operands first; only the branch that is never taken does not look
at its operand. -/
theorem Execution.carryOut_fetches (invoke : Execution.Caller) {op : Opcode}
    (hop : op ≠ .branchNever) : Fetches op.operands (Execution.carryOut invoke op) := by
  cases op with
  | branchNever => exact absurd rfl hop
  | pushSymbol | assign | beginIteration => exact .symbol fun _ => .all _
  | call => exact .symbol fun _ => .count fun _ => .all _
  | pushArray => exact .symbol fun _ => .flag fun _ => .all _
  | branch | branchTrue | branchFalse => exact .branch fun _ => .all _
  | element | setElement | deleteElement => exact .count fun _ => .all _
  | prepareUpdate => exact .flag fun _ => .count fun _ => .all _
  | iterate => exact .symbol fun _ => .symbol fun _ => .branch fun _ => .all _
  | _ => exact .all _

/-! ## Operands that are missing -/

section Fetching

variable {w : World} {c : Context}

theorem Context.fetchSymbol_cases (c : Context) :
    (∃ id, c.pc.slot? = some (.symbol id) ∧
      fetchSymbol c = .ok id { c with pc := c.pc.advance 1 }) ∨
    OperandKind.fits .symbol c.pc.slot? = false ∧ ∃ d, fetchSymbol c = .error (.malformed d) c := by
  unfold fetchSymbol
  cases hslot : c.pc.slot? with
  | none => exact .inr ⟨rfl, _, rfl⟩
  | some slot =>
    cases slot with
    | symbol id => exact .inl ⟨id, rfl, rfl⟩
    | _ => exact .inr ⟨rfl, _, rfl⟩

theorem Context.fetchImmediate_cases (c : Context) :
    (∃ n, c.pc.slot? = some (.immediate n) ∧
      fetchImmediate c = .ok n { c with pc := c.pc.advance 1 }) ∨
    OperandKind.fits .immediate c.pc.slot? = false ∧
      ∃ d, fetchImmediate c = .error (.malformed d) c := by
  unfold fetchImmediate
  cases hslot : c.pc.slot? with
  | none => exact .inr ⟨rfl, _, rfl⟩
  | some slot =>
    cases slot with
    | immediate n => exact .inl ⟨n, rfl, rfl⟩
    | _ => exact .inr ⟨rfl, _, rfl⟩

/-- What fetching an operand can come to: the place in the code moves on by one slot, or the fetch
fails. -/
inductive Fetched {α : Type} (kind : OperandKind) (c : Context) :
    EStateM.Result Fault Context α → Prop where
  | ok (a : α) : kind.fits c.pc.slot? = true →
      Fetched kind c (.ok a { c with pc := c.pc.advance 1 })
  | error (d : Defect) (pc : CodeAddress) : Fetched kind c (.error (.malformed d) { c with pc })

theorem Context.fetchSymbol_fetched (c : Context) : Fetched .symbol c (fetchSymbol c) := by
  rcases fetchSymbol_cases c with ⟨id, hslot, heq⟩ | ⟨-, d, heq⟩
  · rw [heq]
    exact .ok id (by rw [hslot]; rfl)
  · rw [heq]
    exact .error d c.pc

theorem Context.fetchImmediate_fetched (c : Context) :
    Fetched .immediate c (fetchImmediate c) := by
  rcases fetchImmediate_cases c with ⟨n, hslot, heq⟩ | ⟨-, d, heq⟩
  · rw [heq]
    exact .ok n (by rw [hslot]; rfl)
  · rw [heq]
    exact .error d c.pc

theorem Context.fetchCount_fetched (c : Context) : Fetched .immediate c (fetchCount c) := by
  unfold fetchCount
  rcases fetchImmediate_cases c with ⟨n, hslot, heq⟩ | ⟨-, d, heq⟩
  · simp only [heq]
    by_cases hneg : n.toInt < 0
    · rw [if_pos hneg]
      exact .error _ _
    · rw [if_neg hneg]
      exact .ok _ (by rw [hslot]; rfl)
  · simp only [heq]
    exact .error d c.pc

theorem Context.fetchBranch_fetched (c : Context) : Fetched .branchOffset c (fetchBranch c) := by
  unfold fetchBranch
  rcases fetchImmediate_cases c with ⟨n, hslot, heq⟩ | ⟨-, d, heq⟩
  · simp only [heq]
    split
    · exact .ok _ (by rw [hslot]; rfl)
    · exact .error _ _
  · simp only [heq]
    exact .error d c.pc

/-- An operand that is not there, now or later. -/
theorem Execution.fetch_missing {α β : Type} {t : Transition α} {f : α → Execution β}
    {kind : OperandKind} {kinds : List OperandKind} (ht : ∀ c, Fetched kind c (t c))
    (hf : ∀ a c, c.pc.provides kinds = false →
      ∃ d pc, f a ⟨w, c⟩ = .error (.fault (.malformed d)) ⟨w, { c with pc }⟩)
    (h : c.pc.provides (kind :: kinds) = false) :
    ∃ d pc, (Execution.transition t >>= f) ⟨w, c⟩ =
      .error (.fault (.malformed d)) ⟨w, { c with pc }⟩ := by
  have hc := ht c
  cases heq : t c with
  | ok a c' =>
    rw [heq] at hc
    cases hc with
    | ok _ hfits =>
      rw [bind_of_ok (transition_of_ok heq)]
      refine hf a _ ?_
      rw [CodeAddress.provides, hfits, Bool.true_and] at h
      exact h
  | error e c' =>
    rw [heq] at hc
    cases hc with
    | error d pc => exact ⟨d, pc, bind_of_error (transition_of_error heq)⟩

/-- If an operand is not there, an instruction fails before it has done anything. -/
theorem Fetches.missing {α : Type} {kinds : List OperandKind} {x : Execution α}
    (hx : Fetches kinds x) (h : c.pc.provides kinds = false) :
    ∃ d pc, x ⟨w, c⟩ = .error (.fault (.malformed d)) ⟨w, { c with pc }⟩ := by
  induction hx generalizing c with
  | all x => cases h
  | symbol _ ih => exact Execution.fetch_missing Context.fetchSymbol_fetched (fun a _ => ih a) h
  | flag _ ih => exact Execution.fetch_missing Context.fetchImmediate_fetched (fun a _ => ih a) h
  | count _ ih => exact Execution.fetch_missing Context.fetchCount_fetched (fun a _ => ih a) h
  | branch _ ih => exact Execution.fetch_missing Context.fetchBranch_fetched (fun a _ => ih a) h

end Fetching

/-! ## Transfers of control -/

/-- The state in which a routine begins to run. -/
def State.calling (s : State) (routine : NativeId) (arguments : List Value) : State :=
  { s with world := { s.world with
      calls := s.world.calls.push { routine, arguments, store := s.world.store } } }

/-- A routine that starts in this state enters a program on its caller's behalf. -/
inductive Routine.Enters (host : Host) (nested : Runner) : Bool → Routine → State → Prop where
  | inspect {preempting : Bool} {next : CallView → Routine} {s : State} :
      Enters host nested preempting (next { world := s.world, runTarget := s.context.runTarget
                                            focusTarget := s.context.focusTarget, preempting }) s →
      Enters host nested preempting (.inspect next) s
  | update {preempting : Bool} {change : World → World} {next : Routine} {w : World} {c : Context} :
      Enters host nested preempting next ⟨change w, c⟩ →
      Enters host nested preempting (.update change next) ⟨w, c⟩
  | setFocus {preempting : Bool} {target : Option DocumentHandle} {next : Routine} {w : World}
      {c : Context} : Enters host nested preempting next ⟨w, c.setFocus target⟩ →
      Enters host nested preempting (.setFocus target next) ⟨w, c⟩
  | requestPreemption {preempting : Bool} {next : Routine} {s : State} :
      Enters host nested true next s → Enters host nested preempting (.requestPreemption next) s
  | enters {preempting : Bool} {p : ProgramRef} {next : Option Fault → Routine} {w : World}
      {c c' : Context} : Context.enter 0 p c = .ok () c' →
      Enters host nested preempting (.enter p next) ⟨w, c⟩
  | refused {preempting : Bool} {p : ProgramRef} {next : Option Fault → Routine} {w : World}
      {c c' : Context} {e : Fault} : Context.enter 0 p c = .error e c' →
      Enters host nested preempting (next (some e)) ⟨w, c'⟩ →
      Enters host nested preempting (.enter p next) ⟨w, c⟩
  | notStarted {preempting : Bool} {p : ProgramRef} {arguments : List Value}
      {next : Status → Routine} {w : World} {c : Context} {e : Fault} :
      Context.start p arguments host.limits.stackSize c.focusTarget = .error e →
      Enters host nested preempting (next (.failed e)) ⟨w, c⟩ →
      Enters host nested preempting (.execute p arguments next) ⟨w, c⟩
  | executed {preempting : Bool} {p : ProgramRef} {arguments : List Value}
      {next : Status → Routine} {w w' : World} {c inner : Context} {status : Status} :
      Context.start p arguments host.limits.stackSize c.focusTarget = .ok inner →
      nested w inner = some (status, w') → Enters host nested preempting (next status) ⟨w', c⟩ →
      Enters host nested preempting (.execute p arguments next) ⟨w, c⟩

/-- The symbol that the first operand of the next instruction names. -/
def State.operandSymbol? (s : State) : Option Symbol :=
  match (s.context.pc.advance 1).slot? with
  | some (.symbol id) => s.world.symbols.get? id
  | _ => none

/-- The next instruction transfers control if it succeeds. -/
inductive State.Transfers (host : Host) (nested : Runner) (s : State) : Prop where
  | branch : s.context.nextIs .branch → Transfers host nested s
  /-- A condition is as the branch wants it. -/
  | taken {wanted : Bool} {v : Value} {n : Int32} :
      s.context.nextIs (if wanted then .branchTrue else .branchFalse) →
      s.context.stack.back? = some v → v.toInt = .ok n → ((n != 0) == wanted) = true →
      Transfers host nested s
  /-- A loop has no more keys. -/
  | exhausted {id : SymbolId} {symbol : Symbol} {offset : Nat} {it : Iterator} :
      s.context.nextIs .iterate → (s.context.pc.advance 2).slot? = some (.symbol id) →
      s.world.symbols.get? id = some symbol → symbol.frameOffset = .ok offset →
      s.context.localValue offset = .ok (.iterator it) → it.cursor = none →
      Transfers host nested s
  /-- A function is called. -/
  | call {symbol : Symbol} : s.context.nextIs .call → s.operandSymbol? = some symbol →
      symbol.kind = .function → Transfers host nested s
  | returns : s.context.Returns → Transfers host nested s
  /-- A routine is called that enters a program. -/
  | native {symbol : Symbol} {routine : NativeId} {n : Int64} {arguments : List Value}
      {c : Context} : s.context.nextIs .call → s.operandSymbol? = some symbol →
      symbol.kind = .native → symbol.value = .native routine →
      (s.context.pc.advance 2).slot? = some (.immediate n) →
      Context.popMany n.toInt.toNat { s.context with pc := s.context.pc.advance 3 } =
        .ok arguments c →
      Routine.Enters host nested false (host.routine routine arguments)
        (State.calling ⟨Execution.recorded .call s, c⟩ routine arguments) →
      Transfers host nested s
  /-- A variable is read whose routine enters a program. -/
  | property {symbol : Symbol} {routine : NativeId} : s.context.nextIs .pushSymbol →
      s.operandSymbol? = some symbol → symbol.kind = .property → symbol.value = .native routine →
      Routine.Enters host nested false (host.routine routine [])
        (State.calling ⟨Execution.recorded .pushSymbol s,
          { s.context with pc := s.context.pc.advance 2 }⟩ routine []) →
      Transfers host nested s

/-- Whether the next instruction calls a routine and is followed by a marker. -/
def State.takesMarker (s : State) : Bool :=
  s.context.nextIs .call && (s.context.pc.advance 3).slot? == some (.op .fetchResult) &&
    match s.operandSymbol? with
    | some ⟨_, .native, .native _⟩ => true
    | _ => false

/-! ## Moving on -/

/-- An execution that moves on by `n` slots if it succeeds. -/
def Advances {α : Type} (n : Nat) (x : Execution α) : Prop :=
  ∀ s a t, x s = .ok a t → t.context.pc = s.context.pc.advance n

namespace Advances

variable {α β : Type} {x : Execution α}

theorem of_looks {why : Fault → Prop} {n : Nat} (h : Looks why n x) : Advances n x := by
  intro s a t heq
  have hs := h s
  rw [LooksAt, heq] at hs
  exact hs.2

theorem pure (a : α) : Advances 0 (Pure.pure a) := by
  intro s b t heq
  cases heq
  rfl

theorem raise (f : Fault) (n : Nat) : Advances n (Execution.raise f : Execution α) := by
  intro s a t heq
  cases heq

theorem bind {n : Nat} {f : α → Execution β} (hx : Advances 0 x) (hf : ∀ a, Advances n (f a)) :
    Advances n (x >>= f) := by
  intro s b u heq
  obtain ⟨a, t, hxt, hfu⟩ := Execution.bind_eq_ok heq
  rw [hf a t b u hfu, hx s a t hxt]
  rfl

theorem operand {n : Nat} {f : α → Execution β} (hx : Advances 1 x)
    (hf : ∀ a, Advances n (f a)) : Advances (n + 1) (x >>= f) := by
  intro s b u heq
  obtain ⟨a, t, hxt, hfu⟩ := Execution.bind_eq_ok heq
  rw [hf a t b u hfu, hx s a t hxt, CodeAddress.advance_advance, Nat.add_comm]

theorem withStore (f : Store → α × Store) : Advances 0 (Execution.withStore f) := by
  intro s a t heq
  cases heq
  rfl

theorem modifyStore (f : Store → Store) : Advances 0 (Execution.modifyStore f) := by
  intro s a t heq
  cases heq
  rfl

theorem write (place : Place) (v : Value) : Advances 0 (Execution.write place v) := by
  cases place with
  | frame offset => exact of_looks (.setLocal offset v)
  | global id =>
    refine .bind (of_looks (.symbol id)) fun _ => ?_
    intro s a t heq
    cases heq
    rfl

theorem skip : Advances 1 (Execution.transition Context.skip) :=
  of_looks (Looks.skip : Looks Fault.Any 1 _)

theorem pushed (v : Value) :
    Advances 0 (do Execution.push v; return .next : Execution Outcome) :=
  of_looks (.pushed v)

/-! ### Instructions that change something -/

theorem assign : Advances 1 Execution.assign := by
  refine .operand (of_looks .fetchSymbol) fun id => .bind (of_looks (.place? id)) fun place => ?_
  cases place with
  | none => exact .bind (of_looks (.symbol id)) fun _ => .raise _ 0
  | some place =>
    refine .bind (of_looks .pop) fun v => .bind (withStore _) fun copied => ?_
    exact .bind (write place copied) fun _ => .pure _

theorem arrayOrInt (setOperator : Store → ArrayRef → ArrayRef → ArrayRef × Store)
    (f : Int32 → Int32 → Int32) : Advances 0 (Execution.arrayOrInt setOperator f) := by
  refine .bind (of_looks (.viewAny _)) fun top => ?_
  split
  · refine .bind (of_looks (.viewAny _)) fun second => ?_
    split
    · refine .bind (of_looks .pop) fun _ => .bind (of_looks (.convert _)) fun right => ?_
      refine .bind (of_looks .pop) fun _ => .bind (of_looks (.convert _)) fun left => ?_
      exact .bind (withStore _) fun ref => pushed _
    · exact .raise _ 0
  · exact of_looks (.binaryInt _)

theorem setElement : Advances 1 Execution.setElement := by
  refine .operand (of_looks .fetchCount) fun dimensions => .bind (of_looks .pop) fun v => ?_
  split
  · exact .raise _ 0
  · refine .bind (of_looks (.popKey _)) fun key => .bind (of_looks (.popArray _)) fun ref => ?_
    exact .bind (withStore _) fun copied => .bind (modifyStore _) fun _ => .pure _

theorem deleteElement : Advances 1 Execution.deleteElement := by
  refine .operand (of_looks .fetchCount) fun dimensions => ?_
  split
  · exact .bind (of_looks (.popArray _)) fun ref => .bind (modifyStore _) fun _ => .pure _
  · refine .bind (of_looks (.popKey _)) fun key => .bind (of_looks (.popArray _)) fun ref => ?_
    exact .bind (modifyStore _) fun _ => .pure _

theorem arrayOf (id : SymbolId) (place : Place) (makeEmpty : Bool) :
    Advances 0 (Execution.arrayOf id place makeEmpty) := by
  refine .bind (of_looks (.read place)) fun v => ?_
  split
  · split
    · exact .bind (withStore _) fun ref => .bind (write place _) fun _ => .pure _
    · intro s a t heq
      cases heq
  · exact .pure v

theorem pushArray : Advances 2 Execution.pushArray := by
  refine .operand (of_looks .fetchSymbol) fun id => .operand (of_looks .fetchImmediate) fun n => ?_
  refine .bind (of_looks (.place? id)) fun place => ?_
  cases place with
  | none =>
    intro s a t heq
    cases heq
  | some place => exact .bind (arrayOf id place _) fun v => pushed v

theorem pushArgumentArray : Advances 0 Execution.pushArgumentArray := by
  refine .bind (of_looks (.viewAny _)) fun cached => ?_
  dsimp only
  split
  · exact pushed cached
  · refine .bind ?_ fun array => pushed array
    refine .bind (of_looks (.viewAny _)) fun arguments => .bind (withStore _) fun ref => ?_
    exact .bind (of_looks (.setArgumentArray _)) fun _ => .pure _

end Advances

/-! ### Routines -/

section Routines

variable {host : Host} {nested : Runner}

/-- A routine that enters no program leaves its caller where it is. -/
theorem Execution.perform_pc {preempting : Bool} {r : Routine} {s t : State}
    {result : Except NativeError Value × Bool}
    (h : perform host nested preempting r s = .ok result t)
    (hstays : ¬ r.Enters host nested preempting s) : t.context.pc = s.context.pc := by
  induction r generalizing preempting s with
  | finish result =>
    cases h
    rfl
  | inspect next ih => exact ih _ h fun henters => hstays (.inspect henters)
  | update change next ih =>
    exact @ih _ ⟨change s.world, s.context⟩ h fun henters => hstays (.update henters)
  | setFocus target next ih =>
    exact @ih _ ⟨s.world, s.context.setFocus target⟩ h fun henters => hstays (.setFocus henters)
  | requestPreemption next ih => exact ih h fun henters => hstays (.requestPreemption henters)
  | enter p next ih =>
    obtain ⟨w, c⟩ := s
    cases heq : Context.enter 0 p c with
    | ok _ c' => exact absurd (.enters heq) hstays
    | error e c' =>
      simp only [perform, heq] at h
      rw [ih (some e) h fun henters => hstays (.refused heq henters)]
      rcases Context.pushFrame_cases (some c.pc) (some c.fp) 0 p c with
        ⟨-, -, heq'⟩ | ⟨e', -, heq'⟩
      · cases heq.symm.trans heq'
      · cases heq.symm.trans heq'
        rfl
  | execute p arguments next ih =>
    obtain ⟨w, c⟩ := s
    cases hstart : Context.start p arguments host.limits.stackSize c.focusTarget with
    | error e =>
      simp only [perform, hstart] at h
      exact ih (.failed e) h fun henters => hstays (.notStarted hstart henters)
    | ok inner =>
      cases hnested : nested w inner with
      | none =>
        simp only [perform, hstart, hnested] at h
        cases h
      | some answer =>
        obtain ⟨status, w'⟩ := answer
        simp only [perform, hstart, hnested] at h
        exact @ih status _ ⟨w', c⟩ h fun henters => hstays (.executed hstart hnested henters)

theorem Execution.invoke_pc {id : SymbolId} {routine : NativeId} {arguments : List Value}
    {s t : State} {result : Value × Bool}
    (h : invoke host nested id routine arguments s = .ok result t)
    (hstays : ¬ (host.routine routine arguments).Enters host nested false
      (s.calling routine arguments)) : t.context.pc = s.context.pc := by
  obtain ⟨_, s', hcalls, hrest⟩ := bind_eq_ok h
  cases hcalls
  obtain ⟨⟨answer, preempting⟩, s', hperform, hend⟩ := bind_eq_ok hrest
  have hpc := perform_pc hperform hstays
  cases answer with
  | ok v =>
    cases hend
    exact hpc
  | error why => cases hend

/-- A routine's result takes the marker that asks for it. -/
theorem Execution.deliver_pc {id : SymbolId} {v : Value} {s t : State}
    (h : deliver id v s = .ok () t) :
    t.context.pc = s.context.pc.advance (if s.context.nextIs .fetchResult then 1 else 0) := by
  obtain ⟨c, s', hcontext, hrest⟩ := bind_eq_ok h
  cases hcontext
  split at hrest
  · next hmarker =>
    rw [if_pos hmarker]
    split at hrest
    · cases hrest
    · obtain ⟨_, s', hpush, hskip⟩ := bind_eq_ok hrest
      rw [Advances.skip s' _ t hskip, Advances.of_looks (.push v) _ _ s' hpush]
      rfl
  · next hmarker =>
    cases hrest
    rw [if_neg hmarker]
    rfl

end Routines

/-! ### Instructions that may transfer control -/

section Transferring

variable {host : Host} {nested : Runner} {s t : State} {outcome : Outcome} {op : Opcode}

/-- The state in which an opcode is carried out. -/
def State.opened (s : State) (op : Opcode) : State :=
  ⟨Execution.recorded op s, { s.context with pc := s.context.pc.advance 1 }⟩

theorem Execution.transition_eq_ok {α : Type} {tr : Transition α} {a : α}
    (h : transition tr s = .ok a t) : ∃ c, tr s.context = .ok a c ∧ t = ⟨s.world, c⟩ := by
  obtain ⟨w, c⟩ := s
  cases heq : tr c with
  | ok b c' =>
    rw [transition_of_ok heq] at h
    cases h
    exact ⟨c', rfl, rfl⟩
  | error e c' =>
    rw [transition_of_error heq] at h
    cases h

theorem Execution.fetchCount_eq_ok {n : Nat} (h : transition Context.fetchCount s = .ok n t) :
    ∃ m : Int64, s.context.pc.slot? = some (.immediate m) ∧ n = m.toInt.toNat ∧
      t = { s with context := { s.context with pc := s.context.pc.advance 1 } } := by
  obtain ⟨w, c⟩ := s
  rcases Context.fetchImmediate_cases c with ⟨m, hslot, heq⟩ | ⟨-, d, heq⟩
  · refine ⟨m, hslot, ?_⟩
    by_cases hneg : m.toInt < 0
    · simp [transition, Context.fetchCount, heq, hneg] at h
    · simp only [transition, Context.fetchCount, heq, if_neg hneg] at h
      cases h
      exact ⟨rfl, rfl⟩
  · simp [transition, Context.fetchCount, heq] at h

theorem Execution.fetchBranch_eq_ok {n : Nat} (h : transition Context.fetchBranch s = .ok n t) :
    t = { s with context := { s.context with pc := s.context.pc.advance 1 } } := by
  obtain ⟨w, c⟩ := s
  have hfetched := Context.fetchBranch_fetched c
  cases heq : Context.fetchBranch c with
  | ok m c' =>
    rw [transition_of_ok heq] at h
    cases h
    rw [heq] at hfetched
    cases hfetched
    rfl
  | error e c' =>
    rw [transition_of_error heq] at h
    cases h

theorem Execution.pop_eq_ok {v : Value} (h : pop s = .ok v t) :
    s.context.stack.back? = some v ∧ t.context.pc = s.context.pc := by
  obtain ⟨w, c⟩ := s
  have hpc : t.context.pc = c.pc := Advances.of_looks .pop _ _ t h
  refine ⟨?_, hpc⟩
  cases hback : c.stack.back? with
  | none => simp [pop, transition, Context.pop, hback] at h
  | some u =>
    simp only [pop, transition, Context.pop, hback] at h
    cases h
    rfl

theorem Execution.convert_eq_ok {α : Type} {r : Except Mismatch α} {a : α}
    (h : convert r s = .ok a t) : t = s ∧ r = .ok a := by
  cases r with
  | ok b =>
    cases h
    exact ⟨rfl, rfl⟩
  | error why => cases h

theorem Execution.view_eq_ok {α : Type} {g : Context → Except Fault α} {a : α}
    (h : view g s = .ok a t) : t = s ∧ g s.context = .ok a := by
  unfold view at h
  cases heq : g s.context with
  | ok b =>
    rw [heq] at h
    cases h
    exact ⟨rfl, rfl⟩
  | error e =>
    rw [heq] at h
    cases h

theorem Execution.place?_eq_ok {id : SymbolId} {place : Option Place}
    (h : place? id s = .ok place t) : t = s := by
  obtain ⟨symbol, s', hsymbol, hrest⟩ := bind_eq_ok h
  obtain ⟨rfl, -⟩ := symbol_eq_ok hsymbol
  cases hkind : symbol.kind with
  | frameLocal =>
    simp only [hkind] at hrest
    obtain ⟨offset, s', hoffset, hpure⟩ := bind_eq_ok hrest
    obtain ⟨rfl, -⟩ := ofExcept_eq_ok hoffset
    cases hpure
    rfl
  | _ =>
    simp only [hkind] at hrest
    cases hrest
    rfl

/-- An iterator that is not exhausted yields a key. -/
theorem Execution.advance_eq_ok {place : Place} {it : Iterator} {key : Option String}
    (h : advance place it s = .ok key t) :
    t.context.pc = s.context.pc ∧ (key = none → it.cursor = none) := by
  obtain ⟨w, s', hworld, hrest⟩ := bind_eq_ok h
  cases hworld
  cases hnext : it.next s.world.store with
  | error lost =>
    simp only [hnext] at hrest
    cases hrest
  | ok yielded =>
    obtain ⟨found, it'⟩ := yielded
    simp only [hnext] at hrest
    obtain ⟨_, s', hwrite, hpure⟩ := bind_eq_ok hrest
    cases hpure
    refine ⟨Advances.write place _ s _ t hwrite, ?_⟩
    rintro rfl
    unfold Iterator.next at hnext
    cases hcursor : it.cursor with
    | none => rfl
    | some cursor =>
      rw [hcursor] at hnext
      simp only at hnext
      split at hnext
      · cases hnext
      · cases hnext

/-- A branch that is not taken goes on after its operand. -/
theorem branchIf_pc (wanted : Bool)
    (hop : s.context.nextIs (if wanted then .branchTrue else .branchFalse))
    (h : Execution.branchIf wanted (s.opened op) = .ok outcome t)
    (hstays : ¬ s.Transfers host nested) : t.context.pc = s.context.pc.advance 2 := by
  obtain ⟨target, s₁, hfetch, h₁⟩ := Execution.bind_eq_ok h
  cases Execution.fetchBranch_eq_ok hfetch
  obtain ⟨v, s₂, hpop, h₂⟩ := Execution.bind_eq_ok h₁
  obtain ⟨hback, hpc⟩ := Execution.pop_eq_ok hpop
  obtain ⟨n, s₃, hconvert, h₃⟩ := Execution.bind_eq_ok h₂
  obtain ⟨rfl, hn⟩ := Execution.convert_eq_ok hconvert
  split at h₃
  · next htaken => exact absurd (.taken hop hback hn htaken) hstays
  · cases h₃
    exact hpc

/-- A loop that has another key goes on after its operands. -/
theorem iterate_pc (hop : s.context.nextIs .iterate)
    (h : Execution.iterate (s.opened op) = .ok outcome t)
    (hstays : ¬ s.Transfers host nested) : t.context.pc = s.context.pc.advance 4 := by
  obtain ⟨itemId, s₁, hitem, h₁⟩ := Execution.bind_eq_ok h
  obtain ⟨-, rfl⟩ := Execution.fetchSymbol_eq_ok hitem
  obtain ⟨iteratorId, s₂, hiterator, h₂⟩ := Execution.bind_eq_ok h₁
  obtain ⟨hslot, rfl⟩ := Execution.fetchSymbol_eq_ok hiterator
  obtain ⟨exit, s₃, hexit, h₃⟩ := Execution.bind_eq_ok h₂
  cases Execution.fetchBranch_eq_ok hexit
  obtain ⟨item, s₄, hplace, h₄⟩ := Execution.bind_eq_ok h₃
  cases Execution.place?_eq_ok hplace
  cases item with
  | none => cases h₄
  | some item =>
    obtain ⟨place, s₅, hiterator', h₅⟩ := Execution.bind_eq_ok h₄
    obtain ⟨rfl, symbol, offset, hget, hoffset, rfl⟩ := Execution.iteratorPlace_eq_ok hiterator'
    obtain ⟨v, s₆, hread, h₆⟩ := Execution.bind_eq_ok h₅
    obtain ⟨rfl, hv⟩ := Execution.view_eq_ok hread
    cases v with
    | iterator it =>
      obtain ⟨_, s₇, hwrite, h₇⟩ := Execution.bind_eq_ok h₆
      obtain ⟨key, s₈, hadvance, h₈⟩ := Execution.bind_eq_ok h₇
      obtain ⟨hpc, hcursor⟩ := Execution.advance_eq_ok hadvance
      obtain ⟨_, s₉, hbind, h₉⟩ := Execution.bind_eq_ok h₈
      cases h₉
      cases key with
      | none => exact absurd (.exhausted hop hslot hget hoffset hv (hcursor rfl)) hstays
      | some key =>
        rw [Advances.write item (.text key) s₈ _ t hbind, CodeAddress.advance_zero, hpc,
          Advances.write item .unset _ _ s₇ hwrite]
        rfl
    | _ => cases h₆

/-- A call of a routine goes on after its operands and the marker. -/
theorem call_pc (hop : s.context.nextIs .call)
    (h : Execution.call (Execution.invoke host nested) (s.opened .call) = .ok outcome t)
    (hstays : ¬ s.Transfers host nested) :
    t.context.pc = s.context.pc.advance (3 + if s.takesMarker then 1 else 0) := by
  obtain ⟨id, s₁, hname, h₁⟩ := Execution.bind_eq_ok h
  obtain ⟨hslot, rfl⟩ := Execution.fetchSymbol_eq_ok hname
  obtain ⟨count, s₂, hcount, h₂⟩ := Execution.bind_eq_ok h₁
  obtain ⟨n, hn, rfl, rfl⟩ := Execution.fetchCount_eq_ok hcount
  obtain ⟨symbol, s₃, hsymbol, h₃⟩ := Execution.bind_eq_ok h₂
  obtain ⟨rfl, hget⟩ := Execution.symbol_eq_ok hsymbol
  have hoperand : s.operandSymbol? = some symbol := by
    unfold State.operandSymbol?
    rw [show (s.context.pc.advance 1).slot? = some (.symbol id) from hslot]
    exact hget
  obtain ⟨name, kind, value⟩ := symbol
  cases kind with
  | native =>
    cases value with
    | native routine =>
      obtain ⟨arguments, s₄, hpop, h₄⟩ := Execution.bind_eq_ok h₃
      obtain ⟨⟨result, preempting⟩, s₅, hinvoke, h₅⟩ := Execution.bind_eq_ok h₄
      obtain ⟨_, s₆, hdeliver, h₆⟩ := Execution.bind_eq_ok h₅
      cases h₆
      obtain ⟨c, hpopMany, rfl⟩ := Execution.transition_eq_ok hpop
      have hpc : c.pc = s.context.pc.advance 3 := Advances.of_looks (.popMany _) _ _ _ hpop
      have hinvoked : s₅.context.pc = s.context.pc.advance 3 :=
        (Execution.invoke_pc hinvoke fun henters =>
          hstays (.native hop hoperand rfl rfl hn hpopMany henters)).trans hpc
      have hmarker : s₅.context.nextIs .fetchResult = s.takesMarker := by
        rw [State.takesMarker, hop, hoperand, Context.nextIs, hinvoked]
        simp
      rw [Execution.deliver_pc hdeliver, hinvoked, hmarker, CodeAddress.advance_advance]
    | _ => cases h₃
  | function => exact absurd (.call hop hoperand rfl) hstays
  | _ => cases h₃

theorem symbolValue_pc {id : SymbolId} {v : Value}
    (h : Execution.symbolValue (Execution.invoke host nested) id s = .ok v t)
    (hstays : ∀ symbol routine, s.world.symbols.get? id = some symbol → symbol.kind = .property →
      symbol.value = .native routine → ¬ (host.routine routine []).Enters host nested false
        (s.calling routine [])) : t.context.pc = s.context.pc := by
  obtain ⟨symbol, s', hsymbol, hrest⟩ := Execution.bind_eq_ok h
  obtain ⟨rfl, hget⟩ := Execution.symbol_eq_ok hsymbol
  obtain ⟨name, kind, value⟩ := symbol
  cases kind with
  | frameLocal =>
    exact Advances.bind (.of_looks (.frameOffset _)) (fun offset => .of_looks (.localValue offset))
      _ _ _ hrest
  | global | constant =>
    cases hrest
    rfl
  | argument =>
    exact Advances.bind (.of_looks (.convert _))
      (fun index => .of_looks (.argumentValue id index)) _ _ _ hrest
  | property =>
    cases value with
    | native routine =>
      obtain ⟨result, s'', hinvoke, hpure⟩ := Execution.bind_eq_ok hrest
      cases hpure
      exact Execution.invoke_pc hinvoke (hstays _ routine hget rfl rfl)
    | _ => cases hrest
  | native | function => cases hrest

/-- Reading a variable goes on after its name. -/
theorem pushSymbol_pc (hop : s.context.nextIs .pushSymbol)
    (h : Execution.pushSymbol (Execution.invoke host nested) (s.opened .pushSymbol) =
      .ok outcome t) (hstays : ¬ s.Transfers host nested) :
    t.context.pc = s.context.pc.advance 2 := by
  obtain ⟨id, s₁, hname, h₁⟩ := Execution.bind_eq_ok h
  obtain ⟨hslot, rfl⟩ := Execution.fetchSymbol_eq_ok hname
  obtain ⟨v, s₂, hvalue, h₂⟩ := Execution.bind_eq_ok h₁
  have hpc : s₂.context.pc = s.context.pc.advance 2 := by
    refine symbolValue_pc hvalue fun symbol routine hget hkind hnative henters => hstays ?_
    refine .property hop ?_ hkind hnative henters
    unfold State.operandSymbol?
    rw [show (s.context.pc.advance 1).slot? = some (.symbol id) from hslot]
    exact hget
  split at h₂
  · cases h₂
  · rw [Advances.pushed v s₂ _ t h₂, hpc]
    rfl

/-- An instruction that transfers no control goes on after its operands, and after the marker that
it takes. -/
theorem carryOut_pc (hop : s.context.pc.slot? = some (.op op))
    (h : Execution.carryOut (Execution.invoke host nested) op (s.opened op) = .ok outcome t)
    (hstays : ¬ s.Transfers host nested) :
    t.context.pc = s.context.pc.advance
      (1 + op.operandCount + if s.takesMarker then 1 else 0) := by
  have hnext : s.context.nextIs op := Effects.nextIs_iff.2 hop
  by_cases hcall : op = .call
  · subst hcall
    exact call_pc hnext h hstays
  · have hmarker : s.takesMarker = false := by
      have hother : s.context.nextIs .call = false := by
        rw [Context.nextIs, hop]
        simpa using hcall
      rw [State.takesMarker, hother]
      rfl
    rw [hmarker]
    -- what each opcode fetches is what its table of operands lists
    have hlooks : ∀ {why : Fault → Prop} {n : Nat} {x : Execution Outcome}, Looks why n x →
        x (s.opened op) = .ok outcome t → t.context.pc = s.context.pc.advance (1 + n) :=
      fun hx heq => (Advances.of_looks hx _ _ t heq).trans (CodeAddress.advance_advance _ 1 _)
    have hadvances : ∀ {n : Nat} {x : Execution Outcome}, Advances n x →
        x (s.opened op) = .ok outcome t → t.context.pc = s.context.pc.advance (1 + n) :=
      fun hx heq => (hx _ _ t heq).trans (CodeAddress.advance_advance _ 1 _)
    cases op with
    | returnNothing => exact absurd (.returns (.inr (.inl hnext))) hstays
    | returnValue => exact absurd (.returns (.inr (.inr hnext))) hstays
    | pushSymbol => exact pushSymbol_pc hnext h hstays
    | duplicate => exact hlooks .duplicate h
    | assign => exact hadvances .assign h
    | add | subtract | bitAnd | bitOr => exact hadvances (.arrayOrInt _ _) h
    | multiply | divide | remainder | power | greater | less | greaterEqual | lessEqual | and | or =>
      exact hlooks (.binaryInt _) h
    | negate | increment | decrement | not => exact hlooks (.unaryInt _) h
    | equal | notEqual => exact hlooks (.equality _) h
    | concat => exact hlooks .concatenate h
    | call => exact absurd rfl hcall
    | fetchResult => cases h
    | branch => exact absurd (.branch hnext) hstays
    | branchTrue => exact branchIf_pc true hnext h hstays
    | branchFalse => exact branchIf_pc false hnext h hstays
    | branchNever => exact hlooks .branchNever h
    | element => exact hlooks .element h
    | setElement => exact hadvances .setElement h
    | beginIteration => exact hlooks .beginIteration h
    | iterate => exact iterate_pc hnext h hstays
    | contains => exact hlooks .membership h
    | deleteElement => exact hadvances .deleteElement h
    | pushArray => exact hadvances .pushArray h
    | prepareUpdate => exact hlooks .prepareUpdate h
    | pushArgument => exact hlooks .pushArgument h
    | pushArgumentCount => exact hlooks .pushArgumentCount h
    | pushArgumentArray => exact hadvances .pushArgumentArray h

end Transferring

/-! ## Listings -/

namespace Listing

/-- A line, and how many slots are skipped after it. -/
theorem positions_cons (position : Nat) (slot : Instruction) (rest : List Instruction) :
    ∃ skip, (∀ op, slot = .op op → skip = op.operandCount) ∧
      positions 0 position (slot :: rest) = (position, slot) :: positions skip (position + 1) rest := by
  cases slot with
  | op opcode => exact ⟨opcode.operandCount, fun op heq => by cases heq; rfl, rfl⟩
  | _ => exact ⟨0, nofun, rfl⟩

/-- The listing goes on after the slots that it skips. -/
theorem positions_first (skip position : Nat) (code : List Instruction) :
    (∃ slot, (position + skip, slot) ∈ positions skip position code) ∨ code.length ≤ skip := by
  induction code generalizing skip position with
  | nil => exact .inr (Nat.zero_le _)
  | cons slot rest ih =>
    cases skip with
    | zero =>
      obtain ⟨skip, -, hcons⟩ := positions_cons position slot rest
      rw [hcons]
      exact .inl ⟨slot, List.mem_cons_self⟩
    | succ skip =>
      rcases ih skip (position + 1) with ⟨found, hfound⟩ | hend
      · rw [Nat.add_assoc, Nat.add_comm 1] at hfound
        exact .inl ⟨found, hfound⟩
      · exact .inr (Nat.succ_le_succ hend)

/-- After an opcode and its operands comes the next line, or the end of the code. -/
theorem positions_next {skip position i : Nat} {code : List Instruction} {op : Opcode}
    (h : (i, .op op) ∈ positions skip position code) :
    (∃ slot, (i + (1 + op.operandCount), slot) ∈ positions skip position code) ∨
      position + code.length ≤ i + (1 + op.operandCount) := by
  induction code generalizing skip position with
  | nil => simp [positions] at h
  | cons slot rest ih =>
    have hlength : position + (slot :: rest).length = position + 1 + rest.length := by
      rw [List.length_cons]
      omega
    rw [hlength]
    cases skip with
    | succ skip => exact ih h
    | zero =>
      obtain ⟨skip, hskip, hcons⟩ := positions_cons position slot rest
      rw [hcons] at h ⊢
      rcases List.mem_cons.1 h with hhead | hrest
      · simp only [Prod.mk.injEq] at hhead
        rw [hhead.1, ← hskip op hhead.2.symm, ← Nat.add_assoc]
        rcases positions_first skip (position + 1) rest with ⟨found, hfound⟩ | hend
        · exact .inl ⟨found, List.mem_cons_of_mem _ hfound⟩
        · exact .inr (Nat.add_le_add_left hend _)
      · rcases ih hrest with ⟨found, hfound⟩ | hend
        · exact .inl ⟨found, List.mem_cons_of_mem _ hfound⟩
        · exact .inr hend

/-- No line shows a slot that is skipped. -/
theorem le_of_mem_positions {skip position i : Nat} {code : List Instruction} {slot : Instruction}
    (h : (i, slot) ∈ positions skip position code) : position + skip ≤ i := by
  induction code generalizing skip position with
  | nil => simp [positions] at h
  | cons first rest ih =>
    cases skip with
    | succ skip =>
      have hle := ih (show (i, slot) ∈ positions skip (position + 1) rest from h)
      omega
    | zero =>
      obtain ⟨skip, -, hcons⟩ := positions_cons position first rest
      rw [hcons] at h
      rcases List.mem_cons.1 h with hhead | hrest
      · simp only [Prod.mk.injEq] at hhead
        omega
      · have hle := ih hrest
        omega

/-- Between an opcode and the end of its operands there is no line. -/
theorem positions_between {skip position i k : Nat} {code : List Instruction} {op : Opcode}
    {slot : Instruction} (h : (i, .op op) ∈ positions skip position code)
    (hk : (k, slot) ∈ positions skip position code) (hafter : i < k) :
    i + (1 + op.operandCount) ≤ k := by
  induction code generalizing skip position with
  | nil => simp [positions] at h
  | cons first rest ih =>
    cases skip with
    | succ skip => exact ih h hk
    | zero =>
      obtain ⟨skip, hskip, hcons⟩ := positions_cons position first rest
      rw [hcons] at h hk
      simp only [List.mem_cons, Prod.mk.injEq] at h hk
      rcases h with ⟨rfl, hop⟩ | hrest <;> rcases hk with ⟨rfl, -⟩ | hkrest
      · omega
      · have hle := le_of_mem_positions hkrest
        rw [hskip op hop.symm] at hle
        omega
      · have hle := le_of_mem_positions hrest
        omega
      · exact ih hrest hkrest

/-- A line shows the slot at its position. -/
theorem slot_of_mem_positions {skip position i : Nat} {code : List Instruction}
    {slot : Instruction} (h : (i, slot) ∈ positions skip position code) :
    ∃ k, i = position + k ∧ code[k]? = some slot := by
  induction code generalizing skip position with
  | nil => simp [positions] at h
  | cons first rest ih =>
    have hlater : ∀ {skip}, (i, slot) ∈ positions skip (position + 1) rest →
        ∃ k, i = position + k ∧ (first :: rest)[k]? = some slot := by
      intro skip hrest
      obtain ⟨k, hk, hslot⟩ := ih hrest
      exact ⟨k + 1, by omega, by simpa using hslot⟩
    cases skip with
    | succ skip => exact hlater h
    | zero =>
      obtain ⟨skip, -, hcons⟩ := positions_cons position first rest
      rw [hcons] at h
      rcases List.mem_cons.1 h with hhead | hrest
      · simp only [Prod.mk.injEq] at hhead
        exact ⟨0, hhead.1, by rw [hhead.2]; rfl⟩
      · exact hlater hrest

variable {table : SymbolTable} {p : Program}

/-- The line of a listed slot. -/
def slotLine (table : SymbolTable) (p : Program) (position : Nat) (slot : Instruction) : Line where
  position := position
  marked := (targets p.code).contains position
  text := slotText table p.code position slot

/-- The line of the end of the code. -/
def endLine (p : Program) : Line where
  position := p.size
  marked := true
  text := "<end>"

theorem lines_eq (table : SymbolTable) (p : Program) :
    lines table p =
      (positions 0 0 p.code.toList).map (fun listed => slotLine table p listed.1 listed.2) ++
        if (targets p.code).contains p.size then [endLine p] else [] := by
  by_cases hend : (targets p.code).contains p.size
  · rw [if_pos hend]
    exact if_pos hend
  · rw [if_neg hend, List.append_nil]
    exact if_neg hend

theorem mem_lines_iff {line : Line} :
    line ∈ lines table p ↔
      (∃ position slot, (position, slot) ∈ positions 0 0 p.code.toList ∧
        line = slotLine table p position slot) ∨
      p.size ∈ targets p.code ∧ line = endLine p := by
  rw [lines_eq, List.mem_append, List.mem_map]
  refine or_congr ⟨?_, ?_⟩ ?_
  · rintro ⟨⟨position, slot⟩, hmem, rfl⟩
    exact ⟨position, slot, hmem, rfl⟩
  · rintro ⟨position, slot, hmem, rfl⟩
    exact ⟨(position, slot), hmem, rfl⟩
  · by_cases hend : p.size ∈ targets p.code
    · simp [hend]
    · simp [hend]

end Listing

/-- The listing of a program has a line for a position. -/
def Program.Lists (p : Program) (i : Nat) : Prop :=
  ∃ slot, (i, slot) ∈ Listing.positions 0 0 p.code.toList

/-- The lines that show a slot, whatever the symbols are. -/
theorem Program.lists_iff_line (table : SymbolTable) {p : Program} {i : Nat} :
    p.Lists i ↔ i < p.size ∧ ∃ line ∈ Listing.lines table p, line.position = i := by
  constructor
  · rintro ⟨slot, hslot⟩
    obtain ⟨k, hk, hcode⟩ := Listing.slot_of_mem_positions hslot
    have hinside : k < p.size := (List.getElem?_eq_some_iff.1 hcode).1
    exact ⟨by omega, _, Listing.mem_lines_iff.2 (.inl ⟨i, slot, hslot, rfl⟩), rfl⟩
  · rintro ⟨hinside, line, hline, rfl⟩
    rcases Listing.mem_lines_iff.1 hline with ⟨position, slot, hslot, rfl⟩ | ⟨-, rfl⟩
    · exact ⟨slot, hslot⟩
    · exact absurd hinside (Nat.lt_irrefl _)

theorem Program.Lists.slot {p : Program} {i : Nat} {slot : Instruction} (h : p.Lists i)
    (hslot : p.code[i]? = some slot) : (i, slot) ∈ Listing.positions 0 0 p.code.toList := by
  obtain ⟨found, hfound⟩ := h
  obtain ⟨k, hk, hcode⟩ := Listing.slot_of_mem_positions hfound
  rw [Nat.zero_add] at hk
  subst hk
  rw [Array.getElem?_toList] at hcode
  cases hslot.symm.trans hcode
  exact hfound

/-- From a line with an opcode the listing comes to another line or to the end. -/
theorem Program.Lists.next {p : Program} {i : Nat} {op : Opcode} (h : p.Lists i)
    (hop : p.code[i]? = some (.op op)) :
    p.Lists (i + (1 + op.operandCount)) ∨ p.size ≤ i + (1 + op.operandCount) := by
  rcases Listing.positions_next (h.slot hop) with hline | hend
  · exact .inl hline
  · refine .inr ?_
    rwa [Nat.zero_add, Array.length_toList] at hend

/-- Code has a line for its first slot. -/
theorem Program.lists_zero {p : Program} (h : 0 < p.size) : p.Lists 0 := by
  rcases Listing.positions_first 0 0 p.code.toList with hline | hend
  · exact hline
  · rw [Array.length_toList] at hend
    exact absurd hend (Nat.not_le.2 h)

/-- The line that comes after the one at `i` is the one at `j`, or there is none if the code ends
there. -/
structure Program.ListsNext (p : Program) (i j : Nat) : Prop where
  line : j < p.size → p.Lists j
  between : ∀ k, i < k → k < j → ¬ p.Lists k

/-- After the line of an opcode comes the line of the slot after its operands. -/
theorem Program.Lists.listsNext {p : Program} {i : Nat} {op : Opcode} (h : p.Lists i)
    (hop : p.code[i]? = some (.op op)) : p.ListsNext i (i + (1 + op.operandCount)) where
  line hinside := (h.next hop).resolve_right (Nat.not_le.2 hinside)
  between k hafter hbefore := by
    rintro ⟨slot, hslot⟩
    have hle := Listing.positions_between (h.slot hop) hslot hafter
    omega

/-! ## A macro to try -/

namespace Sample

/-- A host whose routines answer with a number. -/
def answering : Host :=
  ⟨⟨16, none⟩, fun _ _ => .finish (.ok (.int 1))⟩

/-- A macro that calls a routine, wants its result, and ends in the middle of an assignment. -/
def callAndAssign : ProgramRef :=
  ⟨0, ⟨#[.op .call, .symbol ⟨0⟩, .immediate 0, .op .fetchResult, .op .assign], []⟩⟩

/-- The macro at a position of its code, with its stack. -/
def callAndAssignAt (position : Nat) (stack : Array Value) : State :=
  ⟨World.ofSymbols ⟨#[⟨"routine", .native, .native ⟨0⟩⟩], [⟨0⟩], [], 0, 0⟩,
    ⟨stack, 16, 0, ⟨callAndAssign, position⟩, none, none⟩⟩

/-- The routine enters no program. -/
theorem callAndAssign_stays (nested : Runner) :
    ¬ (callAndAssignAt 0 #[]).Transfers answering nested := by
  intro h
  cases h with
  | branch hnext => exact absurd hnext (by decide)
  | @taken wanted _ _ hnext => cases wanted <;> exact absurd hnext (by decide)
  | exhausted hnext => exact absurd hnext (by decide)
  | call _ hsymbol hkind =>
    cases hsymbol
    cases hkind
  | returns hreturns => exact absurd hreturns (by decide)
  | native _ _ _ _ _ _ henters => cases henters
  | property hnext => exact absurd hnext (by decide)

end Sample

/-! ## The layout of operands -/

namespace Execution

variable {s : State} {op : Opcode}

/-- Where the code goes on without a transfer of control, the listing has a line. -/
theorem listed_after (hop : s.context.pc.slot? = some (.op op))
    (hlists : s.context.pc.program.program.Lists s.context.pc.index) :
    let after := s.context.pc.advance (1 + op.operandCount + if s.takesMarker then 1 else 0)
    after.program.program.Lists after.index ∨ after.program.program.size ≤ after.index := by
  intro after
  have hnext := hlists.next hop
  cases hmarker : s.takesMarker with
  | false =>
    rw [show after = s.context.pc.advance (1 + op.operandCount) by simp [after, hmarker]]
    exact hnext
  | true =>
    -- the marker has a line of its own, and no operands
    rw [show after = s.context.pc.advance (1 + op.operandCount + 1) by simp [after, hmarker]]
    unfold State.takesMarker at hmarker
    simp only [Bool.and_eq_true] at hmarker
    have hcall := Effects.nextIs_iff.1 hmarker.1.1
    cases hop.symm.trans hcall
    have hfetch := beq_iff_eq.1 hmarker.1.2
    rcases hnext with hline | hend
    · exact hline.next hfetch
    · exact .inr (Nat.le_succ_of_le hend)

/-- If the code does not provide the operands that the table of an opcode lists, a step fails and
leaves everything but its place in the code as it was; the branch that is never taken skips its
operand unseen.  A step that succeeds and transfers no control goes on after these operands, and
after the marker of a routine's result.  The listing begins where the code begins, and from the line
of an opcode it comes to the same place: the line after it is the one of the slot after the
operands. -/
theorem operand_layout (host : Host) (nested : Runner) (hop : s.context.pc.slot? = some (.op op)) :
    (op ≠ .branchNever → (s.context.pc.advance 1).provides op.operands = false →
      ∃ defect pc, step host nested s =
        .error (.fault (.malformed defect)) ⟨recorded op s, { s.context with pc }⟩) ∧
    (op = .branchNever → step host nested s =
      .ok .next ⟨recorded op s, { s.context with pc := s.context.pc.advance 2 }⟩) ∧
    (∀ outcome t, step host nested s = .ok outcome t → ¬ s.Transfers host nested →
      t.context.pc = s.context.pc.advance
        (1 + op.operandCount + if s.takesMarker then 1 else 0) ∧
      (s.context.pc.program.program.Lists s.context.pc.index →
        t.context.pc.program.program.Lists t.context.pc.index ∨
          t.context.pc.program.program.size ≤ t.context.pc.index)) ∧
    s.context.pc.program.program.Lists 0 ∧
    (s.context.pc.program.program.Lists s.context.pc.index →
      s.context.pc.program.program.ListsNext s.context.pc.index
        (s.context.pc.index + (1 + op.operandCount))) ∧
    ∀ table i, s.context.pc.program.program.Lists i ↔
      i < s.context.pc.program.program.size ∧
        ∃ line ∈ Listing.lines table s.context.pc.program.program, line.position = i := by
  have hsize : s.context.pc.index < s.context.pc.program.program.size :=
    (Array.getElem?_eq_some_iff.1 hop).1
  rw [step_of_opcode hop]
  refine ⟨fun hne hmissing => ?_, ?_, fun outcome t hstep hstays => ?_, ?_, ?_, ?_⟩
  · exact (carryOut_fetches (invoke host nested) hne).missing hmissing
  · rintro rfl
    rfl
  · have hpc := carryOut_pc hop hstep hstays
    refine ⟨hpc, fun hlists => ?_⟩
    rw [hpc]
    exact listed_after hop hlists
  · exact Program.lists_zero (Nat.zero_lt_of_lt hsize)
  · exact fun hlists => hlists.listsNext hop
  · exact fun table i => Program.lists_iff_line table

/-- The call goes on after the marker of its result, at a line of the listing, where the operand of
the assignment is missing. -/
theorem operand_layout_of_call :
    (∃ t, step Sample.answering (fun _ _ => none) (Sample.callAndAssignAt 0 #[]) = .ok .next t ∧
      t.context.pc = ⟨Sample.callAndAssign, 4⟩) ∧
    (Sample.callAndAssign.program.Lists 0 ∧ Sample.callAndAssign.program.ListsNext 0 3 ∧
      Sample.callAndAssign.program.Lists 3 ∧ Sample.callAndAssign.program.ListsNext 3 4 ∧
      ∃ line ∈ Listing.lines .empty Sample.callAndAssign.program, line.position = 4) ∧
    ∃ defect pc, step Sample.answering (fun _ _ => none) (Sample.callAndAssignAt 4 #[.int 1]) =
      .error (.fault (.malformed defect)) ⟨recorded .assign (Sample.callAndAssignAt 4 #[.int 1]),
        { (Sample.callAndAssignAt 4 #[.int 1]).context with pc }⟩ := by
  have hcall : (Sample.callAndAssignAt 0 #[]).context.pc.slot? = some (.op .call) := rfl
  have hmarker : (Sample.callAndAssignAt 3 #[]).context.pc.slot? = some (.op .fetchResult) := rfl
  have hassign : (Sample.callAndAssignAt 4 #[.int 1]).context.pc.slot? = some (.op .assign) := rfl
  obtain ⟨-, -, hgoes, hfirst, hnext, -⟩ := operand_layout Sample.answering (fun _ _ => none) hcall
  obtain ⟨-, -, -, -, hnext', hlines⟩ := operand_layout Sample.answering (fun _ _ => none) hmarker
  have hthree : Sample.callAndAssign.program.Lists 3 := (hnext hfirst).line (by decide)
  have hfour := (hlines .empty 4).1 ((hnext' hthree).line (by decide))
  refine ⟨?_, ⟨hfirst, hnext hfirst, hthree, hnext' hthree, hfour.2⟩, ?_⟩
  · exact ⟨_, rfl, (hgoes .next _ rfl (Sample.callAndAssign_stays _)).1⟩
  · exact (operand_layout Sample.answering (fun _ _ => none) hassign).1 (by decide) (by decide)

end Execution

end MacroMachine
