import MacroMachine.Machine.Run
import MacroMachine.Proofs.Balance
import MacroMachine.Proofs.Twins

/-!
# Two runs of one macro

A macro that runs in twin states does the same on both sides: each of its instructions leaves twin
states or fails for the same reason (`Setting.Mirrors.step`), and so does each of its slices
(`Setting.runSlice_answers`).  A routine of the host is never called, for the symbols that the
programs refer to name none.

`Setting.Mirrors` relates two executions by what they make of twin states.  It is closed under
sequencing, so an instruction follows from the operations that it is made of.
-/

namespace MacroMachine

namespace Setting

variable {E : Setting} {pairs : Pairing} {α β γ δ : Type}

/-- What two executions made of twin states: twin states with related results, or the same fault.
The pairing may have grown. -/
inductive Results (E : Setting) (pairs : Pairing) (before : Store)
    (post : Pairing → α → β → Prop) :
    EStateM.Result Halt State α → EStateM.Result Halt State β → Prop where
  | ok {pairs' : Pairing} {a : α} {b : β} {t t' : State}
      (grown : pairs.Extends pairs' before t'.world.store) (states : E.States pairs' t t')
      (h : post pairs' a b) : Results E pairs before post (.ok a t) (.ok b t')
  | fault {pairs' : Pairing} {f f' : Fault} {t t' : State}
      (grown : pairs.Extends pairs' before t'.world.store) (worlds : E.Worlds pairs' t.world t'.world)
      (h : f.Alike pairs' f') :
    Results E pairs before post (.error (.fault f) t) (.error (.fault f') t')

/-- Results after the pairing has grown already. -/
theorem Results.extend {pairs' : Pairing} {s t : Store} {post : Pairing → α → β → Prop}
    {r : EStateM.Result Halt State α} {r' : EStateM.Result Halt State β}
    (h : E.Results pairs' t post r r') (grown : pairs.Extends pairs' s t) :
    E.Results pairs s post r r' := by
  cases h with
  | ok grown' states h => exact .ok (grown.trans grown') states h
  | fault grown' worlds h => exact .fault (grown.trans grown') worlds h

/-- Two executions do the same in twin states. -/
def Mirrors (E : Setting) (pairs : Pairing) (x : Execution α) (y : Execution β)
    (post : Pairing → α → β → Prop) : Prop :=
  ∀ ⦃s s' : State⦄, E.States pairs s s' → E.Results pairs s'.world.store post (x s) (y s')

/-- The results are equal. -/
def Agree : Pairing → α → α → Prop := fun _ a b => a = b

namespace Mirrors

variable {x : Execution α} {y : Execution β} {post : Pairing → α → β → Prop}

/-! ## Sequencing -/

theorem pure {a : α} {b : β} (h : post pairs a b) : E.Mirrors pairs (pure a) (pure b) post :=
  fun _ _ hs => .ok (.refl _ _) hs h

theorem next : E.Mirrors pairs (Pure.pure Outcome.next) (Pure.pure Outcome.next) Agree :=
  pure rfl

/-- Faults that name paired containers count as the same reason. -/
theorem raise {f f' : Fault} (h : f.Alike pairs f') :
    E.Mirrors pairs (Execution.raise f) (Execution.raise f') post :=
  fun _ _ hs => .fault (.refl _ _) hs.worlds h

theorem refuse (f : Fault) : E.Mirrors pairs (Execution.raise f) (Execution.raise f) post :=
  raise (.same f)

/-- What mirrors may be done in sequence.  The containers that the first parts make are paired when
the second ones begin. -/
theorem bind {f : α → Execution γ} {g : β → Execution δ} {last : Pairing → γ → δ → Prop}
    (hx : E.Mirrors pairs x y post)
    (hf : ∀ {pairs' a b}, (∀ {ref ref'}, pairs ref ref' → pairs' ref ref') → post pairs' a b →
      E.Mirrors pairs' (f a) (g b) last) :
    E.Mirrors pairs (x >>= f) (y >>= g) last := by
  intro s s' hs
  have hresults := hx hs
  cases hxs : x s with
  | ok a t =>
    cases hys : y s' with
    | ok b t' =>
      rw [hxs, hys] at hresults
      rw [Execution.bind_of_ok hxs, Execution.bind_of_ok hys]
      cases hresults with
      | ok grown states h => exact (hf grown.mono h states).extend grown
    | error halt t' =>
      -- one side cannot fail without the other
      rw [hxs, hys] at hresults
      cases hresults
  | error halt t =>
    cases hys : y s' with
    | ok b t' =>
      rw [hxs, hys] at hresults
      cases hresults
    | error halt' t' =>
      rw [hxs, hys] at hresults
      rw [Execution.bind_of_error hxs, Execution.bind_of_error hys]
      cases hresults with
      | fault grown worlds h => exact .fault grown worlds h

/-- Going on with a result that is the same on both sides. -/
theorem andThen {x y : Execution α} {f g : α → Execution γ} {last : Pairing → γ → γ → Prop}
    (hx : E.Mirrors pairs x y Agree)
    (hf : ∀ {pairs'} a, (∀ {ref ref'}, pairs ref ref' → pairs' ref ref') →
      E.Mirrors pairs' (f a) (g a) last) :
    E.Mirrors pairs (x >>= f) (y >>= g) last := by
  refine bind hx fun {pairs' a b} hpairs heq => ?_
  cases heq
  exact hf a hpairs

/-! ## Operations -/

/-- Transitions mirror one another if they make the same of alike contexts. -/
theorem transition {tr : Transition α} {tr' : Transition β}
    (h : ∀ {c c'}, E.Contexts pairs c c' → E.Moves pairs (post pairs) (tr c) (tr' c')) :
    E.Mirrors pairs (Execution.transition tr) (Execution.transition tr') post := by
  intro s s' hs
  have hmoves := h hs.contexts
  simp only [Execution.transition]
  generalize tr s.context = r, tr' s'.context = r' at hmoves
  cases hmoves with
  | ok hcontexts h => exact .ok (.refl _ _) ⟨hs.worlds, hcontexts⟩ h
  | error h => exact .fault (.refl _ _) hs.worlds h

/-- So do views. -/
theorem view {f : Context → Except Fault α} {g : Context → Except Fault β}
    (h : ∀ {c c'}, E.Contexts pairs c c' → Tells pairs (post pairs) (f c) (g c')) :
    E.Mirrors pairs (Execution.view f) (Execution.view g) post := by
  intro s s' hs
  have htells := h hs.contexts
  simp only [Execution.view]
  generalize f s.context = r, g s'.context = r' at htells
  cases htells with
  | ok h => exact .ok (.refl _ _) hs h
  | error h => exact .fault (.refl _ _) hs.worlds h

theorem ofExcept (r : Except Fault α) :
    E.Mirrors pairs (Execution.ofExcept r) (Execution.ofExcept r) Agree := by
  cases r with
  | ok a => exact pure rfl
  | error f => exact refuse f

theorem convert {r r' : Except Mismatch α} (h : r' = r) :
    E.Mirrors pairs (Execution.convert r) (Execution.convert r') Agree := by
  cases h
  cases r with
  | ok a => exact pure rfl
  | error why => exact refuse _

theorem context : E.Mirrors pairs Execution.context Execution.context
    (fun pairs => E.Contexts pairs) :=
  fun _ _ hs => .ok (.refl _ _) hs hs.contexts

theorem world : E.Mirrors pairs Execution.world Execution.world (fun pairs => E.Worlds pairs) :=
  fun _ _ hs => .ok (.refl _ _) hs hs.worlds

theorem symbolName (id : SymbolId) :
    E.Mirrors pairs (Execution.symbolName id) (Execution.symbolName id) Agree := by
  intro s s' hs
  refine .ok (.refl _ _) hs ?_
  show s.world.symbols.name id = s'.world.symbols.name id
  rw [hs.worlds.symbols, hs.worlds.symbols']

/-- The table of symbols is the same on both sides. -/
theorem symbol (id : SymbolId) :
    E.Mirrors pairs (Execution.symbol id) (Execution.symbol id)
      (fun _ a b => a = b ∧ E.symbols.get? id = some a) := by
  intro s s' hs
  simp only [Execution.symbol, hs.worlds.symbols, hs.worlds.symbols']
  cases E.symbols.get? id with
  | some symbol => exact .ok (.refl _ _) hs ⟨rfl, rfl⟩
  | none => exact .fault (.refl _ _) hs.worlds (.same _)

/-- Changing paired containers in the same way. -/
theorem modifyStore {ref ref' : ArrayRef} (href : pairs ref ref')
    {f g : Entries Value → Entries Value}
    (hfg : ∀ {e e'}, e.Alike (E.Same pairs) e' → (f e).Alike (E.Same pairs) (g e')) :
    E.Mirrors pairs (Execution.modifyStore (·.modify ref f))
      (Execution.modifyStore (·.modify ref' g)) Agree :=
  fun _ _ hs => .ok (.modify href _ g)
    ⟨⟨hs.worlds.symbols, hs.worlds.symbols', hs.worlds.stores.modify href hfg⟩, hs.contexts⟩ rfl

/-- A change of the stores that lets the pairing grow. -/
theorem withStore {f : Store → α × Store} {g : Store → β × Store}
    (h : ∀ {s s'}, E.Stores pairs s s' → ∃ pairs', pairs.Extends pairs' s' (g s').2 ∧
      E.Stores pairs' (f s).2 (g s').2 ∧ post pairs' (f s).1 (g s').1) :
    E.Mirrors pairs (Execution.withStore f) (Execution.withStore g) post := by
  intro s s' hs
  obtain ⟨pairs', hgrown, hstores, hpost⟩ := h hs.worlds.stores
  exact .ok hgrown ⟨⟨hs.worlds.symbols, hs.worlds.symbols', hstores⟩,
    hs.contexts.mono hgrown.mono⟩ hpost

/-- New containers with the same entries are counterparts. -/
theorem alloc {e e' : Entries Value} (he : e.Alike (E.Same pairs) e') :
    E.Mirrors pairs (Execution.withStore (·.alloc e)) (Execution.withStore (·.alloc e'))
      (fun pairs => pairs) :=
  withStore fun hs => ⟨_, .alloc _ _ _ _, hs.alloc he, .inr ⟨rfl, rfl⟩⟩

theorem record (op : Opcode) (position : Nat) :
    E.Mirrors pairs (Execution.record op position) (Execution.record op position) Agree :=
  fun _ _ hs => .ok (.refl _ _)
    ⟨⟨hs.worlds.symbols, hs.worlds.symbols', hs.worlds.stores⟩, hs.contexts⟩ rfl

/-- A full stack is full on both sides. -/
theorem push {v v' : Value} (hv : E.Same pairs v v') :
    E.Mirrors pairs (Execution.push v) (Execution.push v') Agree :=
  transition fun hc => hc.push hv

theorem pop : E.Mirrors pairs Execution.pop Execution.pop (fun pairs => E.Same pairs) :=
  transition fun hc => hc.pop

/-- Pushing a value and going on. -/
theorem pushed {v v' : Value} (hv : E.Same pairs v v') :
    E.Mirrors pairs (Execution.push v >>= fun _ => Pure.pure Outcome.next)
      (Execution.push v' >>= fun _ => Pure.pure Outcome.next) Agree :=
  (push hv).andThen fun _ _ => next

/-- A symbol that is fetched is one that the programs refer to. -/
theorem fetchSymbol :
    E.Mirrors pairs (Execution.transition Context.fetchSymbol)
      (Execution.transition Context.fetchSymbol) (fun _ a b => a = b ∧ E.Refers a) :=
  transition fun hc => hc.fetchSymbol

theorem fetchImmediate :
    E.Mirrors pairs (Execution.transition Context.fetchImmediate)
      (Execution.transition Context.fetchImmediate) Agree :=
  transition fun hc => hc.fetchImmediate

theorem fetchCount :
    E.Mirrors pairs (Execution.transition Context.fetchCount)
      (Execution.transition Context.fetchCount) Agree :=
  transition fun hc => hc.fetchCount

theorem fetchBranch :
    E.Mirrors pairs (Execution.transition Context.fetchBranch)
      (Execution.transition Context.fetchBranch) Agree :=
  transition fun hc => hc.fetchBranch

theorem jump (target : Nat) :
    E.Mirrors pairs (Execution.transition (Context.jump target))
      (Execution.transition (Context.jump target)) Agree :=
  transition fun hc => hc.jump target

theorem skip :
    E.Mirrors pairs (Execution.transition Context.skip) (Execution.transition Context.skip) Agree :=
  transition fun hc => hc.skip

theorem argumentCount :
    E.Mirrors pairs (Execution.view Context.argumentCount) (Execution.view Context.argumentCount)
      Agree :=
  view fun hc => hc.argumentCount

/-! ## Variables -/

/-- A symbol that a program refers to is private. -/
theorem referred {id : SymbolId} (h : E.Refers id) :
    E.Mirrors pairs (Execution.symbol id) (Execution.symbol id)
      (fun _ a b => a = b ∧ a.Private ∧
        ∀ q, a.kind = .function → a.value = .program q → E.programs q) := by
  obtain ⟨p, hp, hid⟩ := h
  intro s s' hs
  have hresults := symbol id hs
  generalize Execution.symbol id s = r, Execution.symbol id s' = r' at hresults
  cases hresults with
  | ok grown states h =>
    obtain ⟨rfl, hfound⟩ := h
    exact .ok grown states ⟨rfl, E.isPrivate hp hid hfound, fun q => E.closed hp hid hfound⟩
  | fault grown worlds h => exact .fault grown worlds h

/-- A variable that a program refers to lives in the frame. -/
theorem place? {id : SymbolId} (h : E.Refers id) :
    E.Mirrors pairs (Execution.place? id) (Execution.place? id)
      (fun _ a b => a = b ∧ (a = none ∨ ∃ offset, a = some (.frame offset))) := by
  refine bind (referred h) fun {_ symbol _} _ hsymbol => ?_
  obtain ⟨rfl, hprivate, -⟩ := hsymbol
  obtain ⟨name, kind, value⟩ := symbol
  cases kind with
  | frameLocal => exact andThen (ofExcept _) fun offset _ => pure ⟨rfl, .inr ⟨offset, rfl⟩⟩
  | global => exact absurd hprivate (by simp [Symbol.Private])
  | _ => exact pure ⟨rfl, .inl rfl⟩

/-- Private variables lie in the frame, so they are read from alike stacks. -/
theorem read (offset : Nat) :
    E.Mirrors pairs (Execution.read (.frame offset)) (Execution.read (.frame offset))
      (fun pairs => E.Same pairs) :=
  view fun hc => hc.localValue offset

/-- They are written to alike stacks as well. -/
theorem write (offset : Nat) {v v' : Value} (hv : E.Same pairs v v') :
    E.Mirrors pairs (Execution.write (.frame offset) v) (Execution.write (.frame offset) v')
      Agree :=
  transition fun hc => hc.setLocal offset hv

/-- Arguments are counted and read alike. -/
theorem argumentValue (id : SymbolId) (index : Int32) :
    E.Mirrors pairs (Execution.argumentValue id index) (Execution.argumentValue id index)
      (fun pairs => E.Same pairs) := by
  refine andThen argumentCount fun count _ => ?_
  by_cases hcount : index = SymbolTable.argumentCountIndex
  · simp only [if_pos hcount]
    exact pure (.int _)
  · simp only [if_neg hcount]
    by_cases hrange : index.toInt < 0 ∨ count ≤ index.toInt.toNat
    · simp only [if_pos hrange]
      exact andThen (symbolName id) fun name _ => refuse _
    · simp only [if_neg hrange]
      exact view fun hc => hc.argument _

/-- Reading a private symbol asks no routine of the host. -/
theorem symbolValue {id : SymbolId} (h : E.Refers id) (caller caller' : Execution.Caller) :
    E.Mirrors pairs (Execution.symbolValue caller id) (Execution.symbolValue caller' id)
      (fun pairs => E.Same pairs) := by
  refine bind (referred h) fun {_ symbol _} _ hsymbol => ?_
  obtain ⟨rfl, hprivate, -⟩ := hsymbol
  obtain ⟨name, kind, value⟩ := symbol
  cases kind with
  | constant =>
    refine pure ?_
    obtain hkind | hkind : value.kind = .int ∨ value.kind = .text := by
      simpa [Symbol.Private] using hprivate
    · cases value with
      | int n => exact .int n
      | _ => cases hkind
    · cases value with
      | text t => exact .text t
      | _ => cases hkind
  | frameLocal => exact andThen (ofExcept _) fun offset _ => view fun hc => hc.localValue offset
  | argument => exact andThen (convert rfl) fun index _ => argumentValue id index
  | global => exact absurd hprivate (by simp [Symbol.Private])
  | property => exact absurd hprivate (by simp [Symbol.Private])
  | native => exact refuse _
  | function => exact refuse _

/-- The two sides may differ in how they call routines, since no symbol here is computed by one. -/
theorem pushSymbol (caller caller' : Execution.Caller) :
    E.Mirrors pairs (Execution.pushSymbol caller) (Execution.pushSymbol caller') Agree := by
  refine bind fetchSymbol fun {_ id _} _ hid => ?_
  obtain ⟨rfl, href⟩ := hid
  refine bind (symbolValue href caller caller') fun {_ v v'} _ hv => ?_
  rw [hv.alike.isUnset_eq]
  cases v.isUnset with
  | true => exact andThen (symbolName id) fun name _ => refuse _
  | false => exact pushed hv

/-- A copy for an assignment is a new container on both sides. -/
theorem copyForAssignment {v v' : Value} (hv : E.Same pairs v v') :
    E.Mirrors pairs (Execution.withStore (·.copyForAssignment v))
      (Execution.withStore (·.copyForAssignment v')) (fun pairs => E.Same pairs) := by
  refine withStore fun {s s'} hs => ?_
  obtain ⟨halike, hinside⟩ := hv
  cases halike with
  | array href =>
    exact ⟨_, .alloc _ _ _ _, hs.alloc (hs.entries href), .array (.inr ⟨rfl, rfl⟩)⟩
  | iterator href => exact ⟨pairs, .refl _ _, hs, .iterator href⟩
  | other hv =>
    cases v with
    | array => cases hv
    | _ => exact ⟨pairs, .refl _ _, hs, .other hv, hinside⟩

/-- An array is copied on both sides, and the copies are paired. -/
theorem assign : E.Mirrors pairs Execution.assign Execution.assign Agree := by
  refine bind fetchSymbol fun {_ id _} _ hid => ?_
  obtain ⟨rfl, href⟩ := hid
  refine bind (place? href) fun {_ place _} _ hplace => ?_
  obtain ⟨rfl, rfl | ⟨offset, rfl⟩⟩ := hplace
  · refine bind (symbol id) fun {_ found _} _ hsymbol => ?_
    obtain ⟨rfl, -⟩ := hsymbol
    exact refuse _
  · refine bind pop fun _ hv => bind (copyForAssignment hv) fun _ hcopy => ?_
    exact andThen (write offset hcopy) fun _ _ => next

theorem pushArgument : E.Mirrors pairs Execution.pushArgument Execution.pushArgument Agree := by
  refine bind pop fun _ hv => andThen (convert hv.alike.toInt_eq) fun n _ => ?_
  refine andThen argumentCount fun count _ => ?_
  by_cases hrange : n.toInt < 1 ∨ count < n.toInt.toNat
  · simp only [if_pos hrange]
    exact refuse _
  · simp only [if_neg hrange]
    exact bind (view fun hc => hc.argument _) fun _ hv => pushed hv

theorem pushArgumentCount :
    E.Mirrors pairs Execution.pushArgumentCount Execution.pushArgumentCount Agree :=
  andThen argumentCount fun _ _ => pushed (.int _)

theorem rows_arguments {vs vs' : List Value} (h : List.Forall₂ (E.Same pairs) vs vs')
    (first : Nat) :
    RowsAlike (E.Same pairs) ((vs.zipIdx first).map fun (value, i) => (toString i, value))
      ((vs'.zipIdx first).map fun (value, i) => (toString i, value)) := by
  induction h generalizing first with
  | nil => exact .nil
  | cons hv _ ih => exact .cons ⟨rfl, hv⟩ (ih (first + 1))

theorem arguments :
    E.Mirrors pairs (Execution.view Context.arguments) (Execution.view Context.arguments)
      (fun pairs => List.Forall₂ (E.Same pairs)) :=
  view fun hc => hc.arguments

/-- The arrays that are made of the arguments are paired. -/
theorem makeArgumentArray :
    E.Mirrors pairs Execution.makeArgumentArray Execution.makeArgumentArray
      (fun pairs => E.Same pairs) := by
  refine bind arguments fun _ hvs => bind (alloc (.ofList (rows_arguments hvs 0))) fun _ href => ?_
  exact andThen (transition fun hc => hc.setArgumentArray (.array href)) fun _ hpairs =>
    pure (.array (hpairs href))

theorem pushArgumentArray :
    E.Mirrors pairs Execution.pushArgumentArray Execution.pushArgumentArray Agree := by
  refine bind (view fun hc => hc.below 1) fun {_ v v'} _ hv => ?_
  rw [hv.alike.isArray_eq]
  cases v.isArray with
  | true => exact bind (pure hv) fun _ hv => pushed hv
  | false => exact bind makeArgumentArray fun _ hv => pushed hv

/-! ## Operators -/

/-- Numbers are the same on both sides, and so is what is calculated of them. -/
theorem binaryInt (f : Int32 → Int32 → Except Fault Int32) :
    E.Mirrors pairs (Execution.binaryInt f) (Execution.binaryInt f) Agree := by
  refine bind pop fun _ hright => andThen (convert hright.alike.toInt_eq) fun right _ => ?_
  refine bind pop fun _ hleft => andThen (convert hleft.alike.toInt_eq) fun left _ => ?_
  exact andThen (ofExcept _) fun n _ => pushed (.int n)

theorem unaryInt (f : Int32 → Int32) :
    E.Mirrors pairs (Execution.unaryInt f) (Execution.unaryInt f) Agree := by
  refine bind pop fun _ hv => andThen (convert hv.alike.toInt_eq) fun n _ => ?_
  exact pushed (.int _)

theorem equality (wanted : Bool) :
    E.Mirrors pairs (Execution.equality wanted) (Execution.equality wanted) Agree := by
  refine bind pop fun _ hright => bind pop fun hpairs hleft => ?_
  refine andThen (convert (hleft.alike.looselyEqual_eq (hright.alike.mono hpairs))) fun same _ => ?_
  exact pushed (.int _)

theorem concatenate : E.Mirrors pairs Execution.concatenate Execution.concatenate Agree := by
  refine bind pop fun _ hright => andThen (convert hright.alike.toText_eq) fun right _ => ?_
  refine bind pop fun _ hleft => andThen (convert hleft.alike.toText_eq) fun left _ => ?_
  exact pushed (.text _)

/-- The containers of two arrays are counterparts. -/
theorem asArray {v v' : Value} (hv : E.Same pairs v v') :
    E.Mirrors pairs (Execution.convert v.asArray) (Execution.convert v'.asArray)
      (fun pairs => pairs) := by
  cases hv.alike with
  | array href => exact pure href
  | iterator => exact refuse _
  | other h =>
    cases v with
    | array => cases h
    | _ => exact refuse _

/-- A set operator makes its result of what the two containers hold. -/
theorem arrayOrInt {setOperator : Store → ArrayRef → ArrayRef → ArrayRef × Store}
    {merge : Entries Value → Entries Value → Entries Value}
    (hset : ∀ s left right, setOperator s left right = s.alloc (merge (s.entries left)
      (s.entries right)))
    (hmerge : ∀ {rel : Value → Value → Prop} {left left' right right' : Entries Value},
      left.Alike rel left' → right.Alike rel right' →
      (merge left right).Alike rel (merge left' right'))
    (f : Int32 → Int32 → Int32) :
    E.Mirrors pairs (Execution.arrayOrInt setOperator f) (Execution.arrayOrInt setOperator f)
      Agree := by
  refine bind (view fun hc => hc.peek 0) fun {_ v v'} _ hv => ?_
  rw [hv.alike.isArray_eq]
  cases v.isArray with
  | false => exact binaryInt _
  | true =>
    refine bind (view fun hc => hc.peek 1) fun {_ u u'} _ hu => ?_
    rw [hu.alike.isArray_eq]
    cases u.isArray with
    | false => exact refuse _
    | true =>
      refine bind pop fun _ hright => bind (asArray hright) fun {_ right right'} _ hright => ?_
      refine bind pop fun hpairs hleft => ?_
      refine bind (asArray hleft) fun {pairs left left'} hpairs' hleft => ?_
      have hresult : E.Mirrors pairs (Execution.withStore fun s => setOperator s left right)
          (Execution.withStore fun s => setOperator s left' right') (fun pairs => pairs) := by
        refine withStore fun hs => ?_
        rw [hset, hset]
        have hmerged := hmerge (hs.entries hleft) (hs.entries (hpairs' (hpairs hright)))
        exact ⟨_, .alloc _ _ _ _, hs.alloc hmerged, .inr ⟨rfl, rfl⟩⟩
      exact bind hresult fun _ href => pushed (.array href)

/-! ## Elements -/

theorem top (n : Nat) :
    E.Mirrors pairs (Execution.view (Context.top n)) (Execution.view (Context.top n))
      (fun pairs => List.Forall₂ (E.Same pairs)) :=
  view fun hc => hc.top n

/-- Alike values make the same key. -/
theorem peekKey (n : Nat) :
    E.Mirrors pairs (Execution.peekKey n) (Execution.peekKey n) Agree := by
  refine bind (top n) fun _ hparts => ?_
  exact convert (Value.Alike.keyOf_eq (List.Forall₂.imp (fun _ _ hv => hv.alike) hparts))

theorem popKey (n : Nat) : E.Mirrors pairs (Execution.popKey n) (Execution.popKey n) Agree :=
  andThen (peekKey n) fun _ _ => andThen (transition fun hc => hc.drop n) fun _ _ => pure rfl

/-- What is an array on one side is a paired one on the other. -/
theorem container (use : ArrayUse) {v v' : Value} (hv : E.Same pairs v v') :
    E.Mirrors pairs (Execution.container use v) (Execution.container use v')
      (fun pairs => pairs) := by
  cases hv.alike with
  | array href => exact pure href
  | iterator => exact refuse _
  | other h =>
    cases v with
    | array => cases h
    | _ => exact refuse _

theorem popArray (use : ArrayUse) :
    E.Mirrors pairs (Execution.popArray use) (Execution.popArray use) (fun pairs => pairs) :=
  bind pop fun _ hv => container use hv

/-- Paired containers have alike elements under the same keys. -/
theorem elementAt {ref ref' : ArrayRef} (href : pairs ref ref') (key : String) :
    E.Mirrors pairs (Execution.elementAt ref key) (Execution.elementAt ref' key)
      (fun pairs => E.Same pairs) := by
  refine bind world fun {_ w w'} hpairs hw => ?_
  have hfound := (hw.stores.entries (hpairs href)).get? key
  generalize (w.store.entries ref).get? key = a, (w'.store.entries ref').get? key = b at hfound ⊢
  cases hfound with
  | some hv => exact pure hv
  | none => exact refuse _

theorem popSize :
    E.Mirrors pairs Execution.popSize Execution.popSize (fun pairs => E.Same pairs) := by
  refine bind (popArray .index) fun _ href => bind world fun hpairs hw => ?_
  rw [(hw.stores.entries (hpairs href)).size_eq]
  exact pure (.int _)

theorem popElement (dimensions : Nat) :
    E.Mirrors pairs (Execution.popElement dimensions) (Execution.popElement dimensions)
      (fun pairs => E.Same pairs) :=
  andThen (popKey dimensions) fun key _ => bind (popArray .index) fun _ href => elementAt href key

theorem element : E.Mirrors pairs Execution.element Execution.element Agree := by
  refine andThen fetchCount fun dimensions _ => ?_
  by_cases hzero : dimensions = 0
  · simp only [if_pos hzero]
    exact bind popSize fun _ hv => pushed hv
  · simp only [if_neg hzero]
    exact bind (popElement dimensions) fun _ hv => pushed hv

/-- Paired containers are changed alike. -/
theorem setElement : E.Mirrors pairs Execution.setElement Execution.setElement Agree := by
  refine andThen fetchCount fun dimensions _ => bind pop fun _ hv => ?_
  by_cases hzero : dimensions = 0
  · simp only [if_pos hzero]
    exact refuse _
  · simp only [if_neg hzero]
    refine andThen (popKey dimensions) fun key hkey => ?_
    refine bind (popArray .assign) fun harray href => ?_
    -- the copy makes the pairing grow, and the array keeps its partner
    refine bind (copyForAssignment (hv.mono fun h => harray (hkey h))) fun hcopied hcopy => ?_
    exact andThen (modifyStore (hcopied href) fun he => he.insert key hcopy) fun _ _ => next

theorem popIf (wanted : Bool) :
    E.Mirrors pairs (Execution.popIf wanted) (Execution.popIf wanted)
      (fun pairs => Option.Rel (E.Same pairs)) := by
  cases wanted with
  | true => exact bind pop fun _ hv => pure (.some hv)
  | false => exact pure .none

theorem push? {v v' : Option Value} (hv : Option.Rel (E.Same pairs) v v') :
    E.Mirrors pairs (Execution.push? v) (Execution.push? v') Agree := by
  cases hv with
  | some hv => exact push hv
  | none => exact pure rfl

/-- An update reads the same element on both sides. -/
theorem prepareUpdate :
    E.Mirrors pairs Execution.prepareUpdate Execution.prepareUpdate Agree := by
  refine andThen fetchImmediate fun binary _ => andThen fetchCount fun dimensions _ => ?_
  refine bind (popIf _) fun _ hoperand => ?_
  by_cases hzero : dimensions = 0
  · simp only [if_pos hzero]
    exact refuse _
  · simp only [if_neg hzero]
    refine andThen (peekKey dimensions) fun key hkey => ?_
    refine bind (view fun hc => hc.peek dimensions) fun hpeek hv => ?_
    refine bind (container .index hv) fun hfound href => ?_
    refine bind (elementAt href key) fun hread hvalue => andThen (push hvalue) fun _ hpush => ?_
    refine andThen (push? ?_) fun _ _ => next
    cases hoperand with
    | some hv => exact .some (hv.mono fun h => hpush (hread (hfound (hpeek (hkey h)))))
    | none => exact .none

/-- The same keys are deleted. -/
theorem deleteElement :
    E.Mirrors pairs Execution.deleteElement Execution.deleteElement Agree := by
  refine andThen fetchCount fun dimensions _ => ?_
  by_cases hzero : dimensions = 0
  · simp only [if_pos hzero]
    refine bind (popArray .delete) fun _ href => ?_
    exact andThen (modifyStore href fun _ => .empty) fun _ _ => next
  · simp only [if_neg hzero]
    refine andThen (popKey dimensions) fun key _ => bind (popArray .delete) fun _ href => ?_
    exact andThen (modifyStore href fun he => he.erase key) fun _ _ => next

/-- Paired containers have the same keys, also where the keys of one are looked up in another. -/
theorem hasKeys_eq {s s' : Store} (hs : E.Stores pairs s s') {ref ref' : ArrayRef}
    (href : pairs ref ref') {v v' : Value} (hv : v.Alike pairs v') :
    Execution.hasKeys s' ref' v' = Execution.hasKeys s ref v := by
  have hcontains : (s'.entries ref').contains = (s.entries ref).contains :=
    funext fun key => (hs.entries href).contains_eq key
  cases hv with
  | array hkeys =>
    simp only [Execution.hasKeys]
    rw [hcontains, (hs.entries hkeys).keys_eq]
  | iterator => rfl
  | other h =>
    cases v with
    | array => cases h
    | _ =>
      simp only [Execution.hasKeys]
      rw [hcontains]

theorem membership : E.Mirrors pairs Execution.membership Execution.membership Agree := by
  refine bind (popArray .membership) fun _ href => bind pop fun hpop hv => ?_
  refine bind world fun hworld hw => ?_
  refine andThen (convert (hasKeys_eq hw.stores (hworld (hpop href)) (hv.alike.mono hworld)))
    fun found _ => ?_
  exact pushed (.int _)

theorem makeArray (offset : Nat) :
    E.Mirrors pairs (Execution.makeArray (.frame offset)) (Execution.makeArray (.frame offset))
      (fun pairs => E.Same pairs) := by
  refine bind (alloc .empty) fun _ href => ?_
  exact andThen (write offset (.array href)) fun _ hpairs => pure (.array (hpairs href))

/-- An array that a variable lacks is made on both sides. -/
theorem arrayOf (id : SymbolId) (offset : Nat) (makeEmpty : Bool) :
    E.Mirrors pairs (Execution.arrayOf id (.frame offset) makeEmpty)
      (Execution.arrayOf id (.frame offset) makeEmpty) (fun pairs => E.Same pairs) := by
  refine bind (read offset) fun {_ v v'} _ hv => ?_
  rw [hv.alike.isUnset_eq]
  cases v.isUnset with
  | false => exact pure hv
  | true =>
    cases makeEmpty with
    | true => exact makeArray offset
    | false => exact andThen (symbolName id) fun name _ => refuse _

theorem pushArray : E.Mirrors pairs Execution.pushArray Execution.pushArray Agree := by
  refine bind fetchSymbol fun {_ id _} _ hid => ?_
  obtain ⟨rfl, href⟩ := hid
  refine andThen fetchImmediate fun makeEmpty _ => ?_
  refine bind (place? href) fun {_ place _} _ hplace => ?_
  obtain ⟨rfl, rfl | ⟨offset, rfl⟩⟩ := hplace
  · exact andThen (symbolName id) fun name _ => refuse _
  · exact bind (arrayOf id offset _) fun _ hv => pushed hv

/-! ## Loops -/

/-- An iterator lies in the frame. -/
theorem iteratorPlace (id : SymbolId) :
    E.Mirrors pairs (Execution.iteratorPlace id) (Execution.iteratorPlace id)
      (fun _ a b => a = b ∧ ∃ offset, a = .frame offset) := by
  refine bind (symbol id) fun {_ found _} _ hsymbol => ?_
  obtain ⟨rfl, -⟩ := hsymbol
  obtain ⟨name, kind, value⟩ := found
  cases kind with
  | frameLocal => exact andThen (ofExcept _) fun offset _ => pure ⟨rfl, offset, rfl⟩
  | _ => exact refuse _

theorem beginIteration :
    E.Mirrors pairs Execution.beginIteration Execution.beginIteration Agree := by
  refine bind fetchSymbol fun {_ id _} _ hid => ?_
  obtain ⟨rfl, -⟩ := hid
  refine bind (iteratorPlace id) fun {_ place _} _ hplace => ?_
  obtain ⟨rfl, offset, rfl⟩ := hplace
  refine bind (popArray .iterate) fun _ href => bind world fun hpairs hw => ?_
  refine andThen (write offset ?_) fun _ _ => next
  rw [Store.iterate, Store.iterate, (hw.stores.entries (hpairs href)).firstKey?_eq]
  exact .iterator (hpairs href)

theorem bindKey (offset exit : Nat) (key : Option String) :
    E.Mirrors pairs (Execution.bindKey (.frame offset) exit key)
      (Execution.bindKey (.frame offset) exit key) Agree := by
  cases key with
  | some key => exact write offset (.text key)
  | none => exact jump exit

/-- Iterators at the same key of counterparts yield the same key. -/
theorem advance (offset : Nat) {ref ref' : ArrayRef} (href : pairs ref ref')
    (cursor : Option String) :
    E.Mirrors pairs (Execution.advance (.frame offset) ⟨ref, cursor⟩)
      (Execution.advance (.frame offset) ⟨ref', cursor⟩) Agree := by
  refine bind world fun {_ w w'} hpairs hw => ?_
  cases cursor with
  | none => exact andThen (write offset (.iterator (hpairs href))) fun _ _ => pure rfl
  | some key =>
    have hentries := hw.stores.entries (hpairs href)
    simp only [Iterator.next]
    rw [hentries.contains_eq key, hentries.keyAfter?_eq key]
    cases (w.store.entries ref).contains key with
    | true => exact andThen (write offset (.iterator (hpairs href))) fun _ _ => pure rfl
    | false => exact refuse _

/-- A loop yields the same keys, or loses its key on both sides. -/
theorem iterate : E.Mirrors pairs Execution.iterate Execution.iterate Agree := by
  refine bind fetchSymbol fun {_ itemId _} _ hid => ?_
  obtain ⟨rfl, hitem⟩ := hid
  refine bind fetchSymbol fun {_ iteratorId _} _ hid => ?_
  obtain ⟨rfl, -⟩ := hid
  refine andThen fetchBranch fun exit _ => bind (place? hitem) fun {_ place _} _ hplace => ?_
  obtain ⟨rfl, rfl | ⟨item, rfl⟩⟩ := hplace
  · exact andThen (symbolName itemId) fun name _ => refuse _
  · refine bind (iteratorPlace iteratorId) fun {_ place _} _ hplace => ?_
    obtain ⟨rfl, offset, rfl⟩ := hplace
    refine bind (read offset) fun {_ v v'} _ hv => ?_
    cases hv.alike with
    | array => exact andThen (symbolName iteratorId) fun name _ => refuse _
    | iterator href =>
      refine andThen (write item .unset) fun _ hpairs => ?_
      refine andThen (advance offset (hpairs href) _) fun key _ => ?_
      exact andThen (bindKey item exit key) fun _ _ => next
    | other h =>
      cases v with
      | iterator => cases h
      | _ => exact andThen (symbolName iteratorId) fun name _ => refuse _

/-! ## Calls and returns -/

/-- A call of a private symbol enters one of the programs. -/
theorem call (caller caller' : Execution.Caller) :
    E.Mirrors pairs (Execution.call caller) (Execution.call caller') Agree := by
  refine bind fetchSymbol fun {_ id _} _ hid => ?_
  obtain ⟨rfl, href⟩ := hid
  refine andThen fetchCount fun count _ => bind (referred href) fun {_ symbol _} _ hsymbol => ?_
  obtain ⟨rfl, hprivate, hprogram⟩ := hsymbol
  obtain ⟨name, kind, value⟩ := symbol
  cases kind with
  | native => exact absurd hprivate (by simp [Symbol.Private])
  | function =>
    cases value with
    | program q =>
      exact andThen (transition fun hc => hc.enter count (hprogram q rfl rfl)) fun _ _ => next
    | _ => exact refuse _
  | _ => exact refuse _

/-- A result that is missing is missing on both sides. -/
theorem handOver {v v' : Option Value} (hv : Option.Rel (E.Same pairs) v v') :
    E.Mirrors pairs (Execution.handOver v) (Execution.handOver v') Agree := by
  refine bind context fun {_ c c'} hpairs hc => ?_
  rw [hc.nextIs_eq]
  cases c.nextIs .fetchResult with
  | false => exact pure rfl
  | true =>
    cases hv with
    | some hv => exact andThen (push (hv.mono hpairs)) fun _ _ => skip
    | none =>
      refine bind world fun hworld hw => bind context fun {_ c c'} _ hc => ?_
      have hcallee : ∀ {symbols}, Execution.callee symbols c' = Execution.callee symbols c := by
        intro symbols
        rw [Execution.callee, Execution.callee, hc.pc_eq]
      rw [hw.symbols, hw.symbols', hcallee]
      exact refuse _

/-- A return goes back to the same caller, or ends the macro on both sides. -/
theorem leave {v v' : Option Value} (hv : Option.Rel (E.Same pairs) v v') :
    E.Mirrors pairs (Execution.leave v) (Execution.leave v') Agree := by
  refine andThen (transition fun hc => hc.popFrame) fun returnTo hpairs => ?_
  cases returnTo with
  | none =>
    refine andThen (push ?_) fun _ _ => pure rfl
    cases hv with
    | some hv => exact hv.mono hpairs
    | none => exact .unset
  | some back =>
    refine andThen (handOver ?_) fun _ _ => next
    cases hv with
    | some hv => exact .some (hv.mono hpairs)
    | none => exact .none

/-! ## Single instructions -/

theorem branch : E.Mirrors pairs Execution.branch Execution.branch Agree :=
  andThen fetchBranch fun target _ => andThen (jump target) fun _ _ => next

theorem branchIf (wanted : Bool) :
    E.Mirrors pairs (Execution.branchIf wanted) (Execution.branchIf wanted) Agree := by
  refine andThen fetchBranch fun target _ => bind pop fun _ hv => ?_
  refine andThen (convert hv.alike.toInt_eq) fun condition _ => ?_
  cases (condition != 0) == wanted with
  | true => exact andThen (jump target) fun _ _ => next
  | false => exact next

theorem duplicate : E.Mirrors pairs Execution.duplicate Execution.duplicate Agree :=
  bind (view fun hc => hc.peek 0) fun _ hv => pushed hv

/-- One case for every opcode. -/
theorem carryOut (caller caller' : Execution.Caller) (op : Opcode) :
    E.Mirrors pairs (Execution.carryOut caller op) (Execution.carryOut caller' op) Agree := by
  cases op with
  | returnNothing => exact leave .none
  | returnValue => exact bind pop fun _ hv => leave (.some hv)
  | pushSymbol => exact pushSymbol caller caller'
  | duplicate => exact duplicate
  | assign => exact assign
  | add => exact arrayOrInt (fun _ _ _ => rfl) Entries.Alike.union _
  | subtract => exact arrayOrInt (fun _ _ _ => rfl) Entries.Alike.difference _
  | bitAnd => exact arrayOrInt (fun _ _ _ => rfl) Entries.Alike.intersection _
  | bitOr => exact arrayOrInt (fun _ _ _ => rfl) Entries.Alike.union _
  | multiply | divide | remainder | power | greater | less | greaterEqual | lessEqual | and | or =>
    exact binaryInt _
  | negate | increment | decrement | not => exact unaryInt _
  | equal => exact equality true
  | notEqual => exact equality false
  | concat => exact concatenate
  | call => exact call caller caller'
  | fetchResult => exact refuse _
  | branch => exact branch
  | branchTrue => exact branchIf true
  | branchFalse => exact branchIf false
  | branchNever => exact andThen skip fun _ _ => next
  | element => exact element
  | setElement => exact setElement
  | beginIteration => exact beginIteration
  | iterate => exact iterate
  | contains => exact membership
  | deleteElement => exact deleteElement
  | pushArray => exact pushArray
  | prepareUpdate => exact prepareUpdate
  | pushArgument => exact pushArgument
  | pushArgumentCount => exact pushArgumentCount
  | pushArgumentArray => exact pushArgumentArray

/-- An instruction does the same in twin states, however macros are run there. -/
theorem step (host : Host) (nested nested' : Runner) :
    E.Mirrors pairs (Execution.step host nested) (Execution.step host nested') Agree := by
  refine bind context fun hpairs hc => ?_
  rw [hc.pc_eq]
  refine andThen (transition fun hc => hc.fetchOpcode) fun op _ => ?_
  exact andThen (record op _) fun _ _ => carryOut _ _ op

end Mirrors

/-! ## Slices -/

/-- Two macros ended alike, or were suspended alike. -/
inductive Statuses (E : Setting) (pairs : Pairing) : Status → Status → Prop where
  | done {v v' : Value} (h : E.Same pairs v v') : Statuses E pairs (.done v) (.done v')
  | failed {f f' : Fault} (h : f.Alike pairs f') : Statuses E pairs (.failed f) (.failed f')
  | preempted {c c' : Context} (h : E.Contexts pairs c c') (reason : PreemptReason) :
    Statuses E pairs (.preempted c reason) (.preempted c' reason)

/-- What came of two slices: twin worlds and statuses alike, or no answer on either side. -/
inductive Answers (E : Setting) (pairs : Pairing) (before : Store) :
    Option (Status × World) → Option (Status × World) → Prop where
  | none : Answers E pairs before none none
  | some {pairs' : Pairing} {status status' : Status} {w w' : World}
      (grown : pairs.Extends pairs' before w'.store) (worlds : E.Worlds pairs' w w')
      (h : E.Statuses pairs' status status') :
    Answers E pairs before (some (status, w)) (some (status', w'))

/-- What holds for more pairs holds for those that were there before. -/
theorem Answers.extend {pairs' : Pairing} {s t : Store} {a b : Option (Status × World)}
    (h : E.Answers pairs' t a b) (grown : pairs.Extends pairs' s t) : E.Answers pairs s a b := by
  cases h with
  | none => exact .none
  | some grown' worlds h => exact .some (grown.trans grown') worlds h

/-- A slice does the same in twin states. -/
theorem runSlice_answers (host : Host) (fuel executed : Nat) {w w' : World} {c c' : Context}
    (hw : E.Worlds pairs w w') (hc : E.Contexts pairs c c') :
    E.Answers pairs w'.store (host.runSlice fuel executed w c)
      (host.runSlice fuel executed w' c') := by
  induction fuel generalizing executed pairs w w' c c' with
  | zero => exact .none
  | succ fuel ih =>
    have hs : E.States pairs ⟨w, c⟩ ⟨w', c'⟩ := ⟨hw, hc⟩
    have hresults := Mirrors.step host (host.runSlice fuel 0) (host.runSlice fuel 0) hs
    simp only [Host.runSlice]
    generalize Execution.step host (host.runSlice fuel 0) ⟨w, c⟩ = r,
      Execution.step host (host.runSlice fuel 0) ⟨w', c'⟩ = r' at hresults
    cases hresults with
    | fault grown worlds hf => exact .some grown worlds (.failed hf)
    | @ok _ outcome _ t t' grown states houtcome =>
      cases houtcome
      cases outcome with
      | next =>
        by_cases hover : host.sliceOver (executed + 1) = true
        · simp only [if_pos hover]
          exact .some grown states.worlds (.preempted states.contexts _)
        · simp only [if_neg hover]
          exact (ih (executed + 1) states.worlds states.contexts).extend grown
      | preempt => exact .some grown states.worlds (.preempted states.contexts _)
      | done =>
        have hpop := states.contexts.pop
        dsimp only
        generalize Context.pop t.context = x, Context.pop t'.context = y at hpop ⊢
        cases hpop with
        | ok _ hv => exact .some grown states.worlds (.done hv)
        | error hf => exact .some grown states.worlds (.failed hf)

end Setting

end MacroMachine
