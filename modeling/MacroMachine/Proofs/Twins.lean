import MacroMachine.Machine.Execution
import MacroMachine.Proofs.Likeness

/-!
# Twin states

One macro runs in two worlds.  Its programs refer to private symbols only (`Symbol.Private`), and
what it has in its hands is alike up to the names of containers.  The two states are then twins
(`Setting.States`), and every operation on their stores and contexts leaves twins or fails on both
sides for the same reason.

*What is compared.*  In the second world other containers may exist beside those that the macro can
reach.  An operation leaves them alone, and the containers that it makes are new there
(`Pairing.Extends`).
-/

namespace MacroMachine

/-! ## What a macro can come by -/

/-- The symbol holds nothing that macros could share: it is a variable of a frame, an argument, a
function, or a constant number or text. -/
def Symbol.Private (symbol : Symbol) : Prop :=
  symbol.kind = .frameLocal ∨ symbol.kind = .argument ∨ symbol.kind = .function ∨
    symbol.kind = .constant ∧ (symbol.value.kind = .int ∨ symbol.value.kind = .text)

instance (symbol : Symbol) : Decidable symbol.Private :=
  inferInstanceAs (Decidable (_ ∨ _))

/-- A program refers to a symbol. -/
def ProgramRef.RefersTo (p : ProgramRef) (id : SymbolId) : Prop :=
  .symbol id ∈ p.program.code

/-- A symbol table, and programs that refer to private symbols and to functions among themselves
only. -/
structure Setting where
  symbols : SymbolTable
  programs : ProgramRef → Prop
  isPrivate : ∀ {p id symbol}, programs p → p.RefersTo id → symbols.get? id = some symbol →
    symbol.Private
  closed : ∀ {p q id symbol}, programs p → p.RefersTo id → symbols.get? id = some symbol →
    symbol.kind = .function → symbol.value = .program q → programs q

namespace Setting

variable {E : Setting} {pairs pairs' : Pairing}

/-- One of the programs refers to the symbol. -/
def Refers (E : Setting) (id : SymbolId) : Prop :=
  ∃ p, E.programs p ∧ p.RefersTo id

/-- Two values are alike, and no address among them leads out of the programs. -/
structure Same (E : Setting) (pairs : Pairing) (v v' : Value) : Prop where
  alike : v.Alike pairs v'
  inside : ∀ {a}, v = .address (some a) → E.programs a.program

/-! ## Values -/

namespace Same

variable {v v' : Value}

theorem mono (h : E.Same pairs v v') (hpairs : ∀ {ref ref'}, pairs ref ref' → pairs' ref ref') :
    E.Same pairs' v v' :=
  ⟨h.alike.mono hpairs, h.inside⟩

/-- Paired containers are the same to the macro. -/
theorem array {ref ref' : ArrayRef} (h : pairs ref ref') :
    E.Same pairs (.array ref) (.array ref') :=
  ⟨.array h, nofun⟩

theorem iterator {ref ref' : ArrayRef} {cursor : Option String} (h : pairs ref ref') :
    E.Same pairs (.iterator ⟨ref, cursor⟩) (.iterator ⟨ref', cursor⟩) :=
  ⟨.iterator h, nofun⟩

theorem int (n : Int32) : E.Same pairs (.int n) (.int n) :=
  ⟨.other rfl, nofun⟩

theorem text (s : String) : E.Same pairs (.text s) (.text s) :=
  ⟨.other rfl, nofun⟩

theorem unset : E.Same pairs .unset .unset :=
  ⟨.other rfl, nofun⟩

theorem frame (fp : Option Nat) : E.Same pairs (.frame fp) (.frame fp) :=
  ⟨.other rfl, nofun⟩

/-- Addresses are the same on both sides, and lead to programs of the macro. -/
theorem address {a : Option CodeAddress} (h : ∀ b, a = some b → E.programs b.program) :
    E.Same pairs (.address a) (.address a) :=
  ⟨.other rfl, fun heq => h _ (by cases heq; rfl)⟩

end Same

end Setting

/-- Two faults are the same, up to the value found in a spoiled slot. -/
inductive Fault.Alike (pairs : Pairing) : Fault → Fault → Prop where
  | same (f : Fault) : Fault.Alike pairs f f
  | corruptSlot (slot : FrameSlot) {v v' : Value} (h : v.Alike pairs v') :
    Fault.Alike pairs (.malformed (.corruptSlot slot v)) (.malformed (.corruptSlot slot v'))

/-! ## Stores -/

theorem Store.size_alloc (s : Store) (e : Entries Value) :
    (s.alloc e).2.containers.size = s.containers.size + 1 :=
  Array.size_push e

/-- A pairing has grown while a store changed: it pairs new containers of the store only, and
containers that had no partner hold what they held. -/
structure Pairing.Extends (pairs pairs' : Pairing) (before after : Store) : Prop where
  mono : ∀ {ref ref'}, pairs ref ref' → pairs' ref ref'
  fresh : ∀ {ref ref'}, pairs' ref ref' → pairs ref ref' ∨ before.containers.size ≤ ref'.index
  kept : ∀ {ref}, ref.index < before.containers.size → (∀ other, ¬ pairs other ref) →
    after.entries ref = before.entries ref
  size_le : before.containers.size ≤ after.containers.size

namespace Pairing

/-- The pairing with one more pair. -/
def add (pairs : Pairing) (ref ref' : ArrayRef) : Pairing := fun r r' =>
  pairs r r' ∨ r = ref ∧ r' = ref'

namespace Extends

variable {pairs pairs' pairs'' : Pairing} {s t u : Store}

theorem refl (pairs : Pairing) (s : Store) : pairs.Extends pairs s s :=
  ⟨id, .inl, fun _ _ => rfl, Nat.le_refl _⟩

/-- Pairs that are added step by step. -/
theorem trans (h : pairs.Extends pairs' s t) (h' : pairs'.Extends pairs'' t u) :
    pairs.Extends pairs'' s u where
  mono hpair := h'.mono (h.mono hpair)
  fresh hpair := by
    rcases h'.fresh hpair with hpair | hnew
    · exact h.fresh hpair
    · exact .inr (Nat.le_trans h.size_le hnew)
  kept hlt halone := by
    refine (h'.kept (Nat.lt_of_lt_of_le hlt h.size_le) fun other hpair => ?_).trans
      (h.kept hlt halone)
    rcases h.fresh hpair with hpair | hnew
    · exact halone other hpair
    · exact absurd hlt (Nat.not_lt.2 hnew)
  size_le := Nat.le_trans h.size_le h'.size_le

/-- A change of a container that has a partner. -/
theorem modify {ref ref' : ArrayRef} (href : pairs ref ref') (s : Store)
    (f : Entries Value → Entries Value) : pairs.Extends pairs s (s.modify ref' f) where
  mono := id
  fresh := .inl
  kept _ halone := by
    refine Store.entries_modify_of_ne s f ?_
    rintro rfl
    exact halone _ href
  size_le := Nat.le_of_eq Array.size_modify.symm

/-- A new container gets a partner. -/
theorem alloc (pairs : Pairing) (ref : ArrayRef) (s : Store) (e : Entries Value) :
    pairs.Extends (pairs.add ref (s.alloc e).1) s (s.alloc e).2 where
  mono := .inl
  fresh := by
    rintro r r' (hpair | ⟨-, rfl⟩)
    · exact .inl hpair
    · exact .inr (Nat.le_refl _)
  kept hlt _ := by
    refine Store.entries_alloc_of_ne s e ?_
    rintro rfl
    exact Nat.lt_irrefl _ hlt
  size_le := by
    rw [Store.size_alloc]
    exact Nat.le_succ _

end Extends

end Pairing

namespace Setting

variable {E : Setting} {pairs pairs' : Pairing}

/-- The pairing is one to one between containers that exist, and paired containers hold the same. -/
structure Stores (E : Setting) (pairs : Pairing) (s s' : Store) : Prop where
  left_unique : ∀ {ref other ref'}, pairs ref ref' → pairs other ref' → ref = other
  right_unique : ∀ {ref ref' other}, pairs ref ref' → pairs ref other → ref' = other
  left_lt : ∀ {ref ref'}, pairs ref ref' → ref.index < s.containers.size
  right_lt : ∀ {ref ref'}, pairs ref ref' → ref'.index < s'.containers.size
  entries : ∀ {ref ref'}, pairs ref ref' →
    (s.entries ref).Alike (E.Same pairs) (s'.entries ref')

namespace Stores

variable {s s' : Store}

/-- Changing paired containers in the same way. -/
theorem modify (h : E.Stores pairs s s') {ref ref' : ArrayRef} (href : pairs ref ref')
    {f g : Entries Value → Entries Value}
    (hfg : ∀ {e e'}, e.Alike (E.Same pairs) e' → (f e).Alike (E.Same pairs) (g e')) :
    E.Stores pairs (s.modify ref f) (s'.modify ref' g) where
  left_unique := h.left_unique
  right_unique := h.right_unique
  left_lt hr := Nat.lt_of_lt_of_eq (h.left_lt hr) Array.size_modify.symm
  right_lt hr := Nat.lt_of_lt_of_eq (h.right_lt hr) Array.size_modify.symm
  entries {r r'} hr := by
    by_cases heq : r = ref
    · subst heq
      obtain rfl := h.right_unique hr href
      rw [Store.entries_modify s f (h.left_lt hr), Store.entries_modify s' g (h.right_lt hr)]
      exact hfg (h.entries hr)
    · -- the pairing is one to one, so the partner is another container too
      have heq' : r' ≠ ref' := by
        rintro rfl
        exact heq (h.left_unique hr href)
      rw [Store.entries_modify_of_ne s f heq, Store.entries_modify_of_ne s' g heq']
      exact h.entries hr

/-- Making a container of the same entries in both stores pairs the two. -/
theorem alloc (h : E.Stores pairs s s') {e e' : Entries Value} (he : e.Alike (E.Same pairs) e') :
    E.Stores (pairs.add (s.alloc e).1 (s'.alloc e').1) (s.alloc e).2 (s'.alloc e').2 := by
  -- paired containers exist, so the new ones are none of them
  have hne : ∀ {r r'}, pairs r r' → r ≠ (s.alloc e).1 := by
    rintro r r' hr rfl
    exact Nat.lt_irrefl _ (h.left_lt hr)
  have hne' : ∀ {r r'}, pairs r r' → r' ≠ (s'.alloc e').1 := by
    rintro r r' hr rfl
    exact Nat.lt_irrefl _ (h.right_lt hr)
  have hsame : ∀ v v', E.Same pairs v v' →
      E.Same (pairs.add (s.alloc e).1 (s'.alloc e').1) v v' :=
    fun v v' hv => hv.mono .inl
  refine ⟨?_, ?_, ?_, ?_, ?_⟩
  · rintro r other r' (hr | ⟨rfl, rfl⟩) (ho | ⟨rfl, ho⟩)
    · exact h.left_unique hr ho
    · exact absurd ho (hne' hr)
    · exact absurd rfl (hne' ho)
    · rfl
  · rintro r r' other (hr | ⟨rfl, rfl⟩) (ho | ⟨ho, rfl⟩)
    · exact h.right_unique hr ho
    · exact absurd ho (hne hr)
    · exact absurd rfl (hne ho)
    · rfl
  · rintro r r' (hr | ⟨rfl, rfl⟩)
    · exact Nat.lt_of_lt_of_eq (Nat.lt_succ_of_lt (h.left_lt hr)) (Store.size_alloc s e).symm
    · exact Nat.lt_of_lt_of_eq (Nat.lt_succ_self _) (Store.size_alloc s e).symm
  · rintro r r' (hr | ⟨rfl, rfl⟩)
    · exact Nat.lt_of_lt_of_eq (Nat.lt_succ_of_lt (h.right_lt hr)) (Store.size_alloc s' e').symm
    · exact Nat.lt_of_lt_of_eq (Nat.lt_succ_self _) (Store.size_alloc s' e').symm
  · rintro r r' (hr | ⟨rfl, rfl⟩)
    · rw [Store.entries_alloc_of_ne s e (hne hr), Store.entries_alloc_of_ne s' e' (hne' hr)]
      exact (h.entries hr).mono hsame
    · rw [Store.entries_alloc, Store.entries_alloc]
      exact he.mono hsame

/-- The stores of twins match. -/
theorem toMatches (h : E.Stores pairs s s') : pairs.Matches s s' where
  left_unique := h.left_unique
  right_unique := h.right_unique
  entries href := (h.entries href).mono fun _ _ hv => hv.alike

end Stores

/-! ## Contexts -/

variable {α β : Type} {rel : α → β → Prop}

/-- Two contexts hold the same on their stacks and agree in all else, and the code at hand is one of
the programs. -/
inductive Contexts (E : Setting) (pairs : Pairing) (c : Context) : Context → Prop where
  | of (stack : Array Value) (hstack : Slotwise (E.Same pairs) c.stack stack)
      (hprogram : E.programs c.pc.program) : Contexts E pairs c { c with stack := stack }

/-- What was read from two contexts is related, or refused for the same reason. -/
inductive Tells (pairs : Pairing) (rel : α → β → Prop) : Except Fault α → Except Fault β → Prop where
  | ok {a : α} {b : β} (h : rel a b) : Tells pairs rel (.ok a) (.ok b)
  | error {f f' : Fault} (h : f.Alike pairs f') : Tells pairs rel (.error f) (.error f')

/-- What two transitions came to is related, or both failed for the same reason. -/
inductive Moves (E : Setting) (pairs : Pairing) (rel : α → β → Prop) :
    EStateM.Result Fault Context α → EStateM.Result Fault Context β → Prop where
  | ok {a : α} {b : β} {c c' : Context} (hcontexts : E.Contexts pairs c c') (h : rel a b) :
    Moves E pairs rel (.ok a c) (.ok b c')
  | error {f f' : Fault} {c c' : Context} (h : f.Alike pairs f') :
    Moves E pairs rel (.error f c) (.error f' c')

theorem Tells.refuse (f : Fault) : Tells pairs rel (.error f) (.error f) :=
  .error (.same f)

theorem Moves.refuse {c c' : Context} (f : Fault) : Moves E pairs rel (.error f c) (.error f c') :=
  .error (.same f)

namespace Contexts

variable {c c' : Context} {v v' : Value}

/-- More pairs make no difference to what is alike already. -/
theorem mono (h : E.Contexts pairs c c') (hpairs : ∀ {ref ref'}, pairs ref ref' → pairs' ref ref') :
    E.Contexts pairs' c c' := by
  obtain ⟨stack, hstack, hprogram⟩ := h
  exact .of _ (hstack.mono fun _ _ hv => hv.mono hpairs) hprogram

/-- There is room on both sides or on neither. -/
theorem push (h : E.Contexts pairs c c') (hv : E.Same pairs v v') :
    E.Moves pairs Eq (Context.push v c) (Context.push v' c') := by
  obtain ⟨stack, hstack, hprogram⟩ := h
  simp only [Context.push, hstack.size_eq]
  by_cases hfull : c.limit ≤ c.stack.size
  · rw [if_pos hfull, if_pos hfull]
    exact .refuse _
  · rw [if_neg hfull, if_neg hfull]
    exact .ok (.of _ (hstack.push hv) hprogram) rfl

/-- Related values are taken off the stacks. -/
theorem pop (h : E.Contexts pairs c c') :
    E.Moves pairs (E.Same pairs) (Context.pop c) (Context.pop c') := by
  obtain ⟨stack, hstack, hprogram⟩ := h
  have htop := hstack.slot (c.stack.size - 1)
  simp only [Context.pop, Array.back?_eq_getElem?, hstack.size_eq]
  generalize c.stack[c.stack.size - 1]? = a, stack[c.stack.size - 1]? = b at htop
  cases htop with
  | some hv => exact .ok (.of _ hstack.pop hprogram) hv
  | none => exact .refuse _

theorem drop (h : E.Contexts pairs c c') (n : Nat) :
    E.Moves pairs Eq (Context.drop n c) (Context.drop n c') := by
  obtain ⟨stack, hstack, hprogram⟩ := h
  simp only [Context.drop, hstack.size_eq]
  by_cases hn : n ≤ c.stack.size
  · rw [if_pos hn, if_pos hn]
    exact .ok (.of _ (hstack.extract _ _) hprogram) rfl
  · rw [if_neg hn, if_neg hn]
    exact .refuse _

/-- The depth of the stacks is the same, so a value is found on both sides or on neither. -/
theorem peek (h : E.Contexts pairs c c') (depth : Nat) :
    Tells pairs (E.Same pairs) (Context.peek depth c) (Context.peek depth c') := by
  obtain ⟨stack, hstack, -⟩ := h
  simp only [Context.peek, hstack.size_eq]
  by_cases hd : depth < c.stack.size
  · rw [if_pos hd, if_pos hd]
    have hslot := hstack.slot (c.stack.size - (depth + 1))
    generalize c.stack[c.stack.size - (depth + 1)]? = a, stack[c.stack.size - (depth + 1)]? = b at hslot ⊢
    cases hslot with
    | some hv => exact .ok hv
    | none => exact .refuse _
  · rw [if_neg hd, if_neg hd]
    exact .refuse _

theorem top (h : E.Contexts pairs c c') (n : Nat) :
    Tells pairs (List.Forall₂ (E.Same pairs)) (Context.top n c) (Context.top n c') := by
  obtain ⟨stack, hstack, -⟩ := h
  simp only [Context.top, hstack.size_eq]
  by_cases hn : n ≤ c.stack.size
  · rw [if_pos hn, if_pos hn]
    exact .ok (hstack.extract _ _)
  · rw [if_neg hn, if_neg hn]
    exact .refuse _

/-! ### Code -/

theorem skip (h : E.Contexts pairs c c') :
    E.Moves pairs Eq (Context.skip c) (Context.skip c') := by
  obtain ⟨stack, hstack, hprogram⟩ := h
  exact .ok (.of _ hstack hprogram) rfl

theorem jump (h : E.Contexts pairs c c') (target : Nat) :
    E.Moves pairs Eq (Context.jump target c) (Context.jump target c') := by
  obtain ⟨stack, hstack, hprogram⟩ := h
  exact .ok (.of _ hstack hprogram) rfl

theorem pc_eq (h : E.Contexts pairs c c') : c'.pc = c.pc := by
  obtain ⟨-, -, -⟩ := h
  rfl

theorem nextIs_eq (h : E.Contexts pairs c c') (op : Opcode) : c'.nextIs op = c.nextIs op := by
  rw [Context.nextIs, Context.nextIs, h.pc_eq]

/-- The code is the same on both sides. -/
theorem fetchOpcode (h : E.Contexts pairs c c') :
    E.Moves pairs Eq (Context.fetchOpcode c) (Context.fetchOpcode c') := by
  obtain ⟨stack, hstack, hprogram⟩ := h
  simp only [Context.fetchOpcode]
  cases c.pc.slot? with
  | none => exact .ok (.of _ hstack hprogram) rfl
  | some slot =>
    cases slot with
    | op op => exact .ok (.of _ hstack hprogram) rfl
    | _ => exact .refuse _

/-- What code names is what the programs refer to. -/
theorem fetchSymbol (h : E.Contexts pairs c c') :
    E.Moves pairs (fun id id' => id = id' ∧ E.Refers id) (Context.fetchSymbol c)
      (Context.fetchSymbol c') := by
  obtain ⟨stack, hstack, hprogram⟩ := h
  simp only [Context.fetchSymbol]
  cases hslot : c.pc.slot? with
  | none => exact .refuse _
  | some slot =>
    cases slot with
    | symbol id =>
      have hid : c.pc.program.RefersTo id := Array.mem_of_getElem? hslot
      exact .ok (.of _ hstack hprogram) ⟨rfl, _, hprogram, hid⟩
    | _ => exact .refuse _

theorem fetchImmediate (h : E.Contexts pairs c c') :
    E.Moves pairs Eq (Context.fetchImmediate c) (Context.fetchImmediate c') := by
  obtain ⟨stack, hstack, hprogram⟩ := h
  simp only [Context.fetchImmediate]
  cases c.pc.slot? with
  | none => exact .refuse _
  | some slot =>
    cases slot with
    | immediate n => exact .ok (.of _ hstack hprogram) rfl
    | _ => exact .refuse _

theorem fetchCount (h : E.Contexts pairs c c') :
    E.Moves pairs Eq (Context.fetchCount c) (Context.fetchCount c') := by
  have himmediate := h.fetchImmediate
  simp only [Context.fetchCount]
  generalize Context.fetchImmediate c = x, Context.fetchImmediate c' = y at himmediate
  cases himmediate with
  | @ok n _ _ _ hc heq =>
    cases heq
    by_cases hneg : n.toInt < 0
    · simp only [if_pos hneg]
      exact .refuse _
    · simp only [if_neg hneg]
      exact .ok hc rfl
  | error hf => exact .error hf

/-- The targets of branches are the same, and are checked alike. -/
theorem fetchBranch (h : E.Contexts pairs c c') :
    E.Moves pairs Eq (Context.fetchBranch c) (Context.fetchBranch c') := by
  have himmediate := h.fetchImmediate
  simp only [Context.fetchBranch, h.pc_eq]
  generalize Context.fetchImmediate c = x, Context.fetchImmediate c' = y at himmediate
  cases himmediate with
  | @ok n _ d d' hc heq =>
    cases heq
    simp only [hc.pc_eq]
    by_cases hrange : 0 ≤ (c.pc.index : Int) + n.toInt ∧
        (c.pc.index : Int) + n.toInt ≤ d.pc.program.program.size
    · simp only [if_pos hrange]
      exact .ok hc rfl
    · simp only [if_neg hrange]
      exact .refuse _
  | error hf => exact .error hf

/-! ### Frames -/

/-- The slots below the frame pointer. -/
theorem below (h : E.Contexts pairs c c') (distance : Nat) :
    Tells pairs (E.Same pairs) (c.below distance) (c'.below distance) := by
  obtain ⟨stack, hstack, -⟩ := h
  simp only [Context.below]
  by_cases hd : distance ≤ c.fp
  · rw [if_pos hd, if_pos hd]
    have hslot := hstack.slot (c.fp - distance)
    generalize c.stack[c.fp - distance]? = a, stack[c.fp - distance]? = b at hslot ⊢
    cases hslot with
    | some hv => exact .ok hv
    | none => exact .refuse _
  · rw [if_neg hd, if_neg hd]
    exact .refuse _

/-- The saved number of arguments is the same, or spoiled on both sides. -/
theorem argumentCount (h : E.Contexts pairs c c') :
    Tells pairs Eq c.argumentCount c'.argumentCount := by
  have hslot := h.below 2
  simp only [Context.argumentCount]
  generalize c.below 2 = x, c'.below 2 = y at hslot
  cases hslot with
  | error hf => exact .error hf
  | @ok v v' hv =>
    cases hv.alike with
    | array hpair => exact .error (.corruptSlot _ (.array hpair))
    | iterator hpair => exact .error (.corruptSlot _ (.iterator hpair))
    | other =>
      cases v with
      | int n =>
        by_cases hneg : n.toInt < 0
        · simp only [if_pos hneg]
          exact .refuse _
        · simp only [if_neg hneg]
          exact .ok rfl
      | _ => exact .refuse _

theorem savedFrame (h : E.Contexts pairs c c') : Tells pairs Eq c.savedFrame c'.savedFrame := by
  have hslot := h.below 3
  simp only [Context.savedFrame]
  generalize c.below 3 = x, c'.below 3 = y at hslot
  cases hslot with
  | error hf => exact .error hf
  | @ok v v' hv =>
    cases hv.alike with
    | array hpair => exact .error (.corruptSlot _ (.array hpair))
    | iterator hpair => exact .error (.corruptSlot _ (.iterator hpair))
    | other =>
      cases v with
      | frame fp => exact .ok rfl
      | _ => exact .refuse _

/-- A saved address leads back into one of the programs. -/
theorem savedAddress (h : E.Contexts pairs c c') :
    Tells pairs (fun a b => a = b ∧ ∀ back, a = some back → E.programs back.program)
      c.savedAddress c'.savedAddress := by
  have hslot := h.below 4
  simp only [Context.savedAddress]
  generalize c.below 4 = x, c'.below 4 = y at hslot
  cases hslot with
  | error hf => exact .error hf
  | @ok v v' hv =>
    cases hv.alike with
    | array hpair => exact .error (.corruptSlot _ (.array hpair))
    | iterator hpair => exact .error (.corruptSlot _ (.iterator hpair))
    | other =>
      cases v with
      | address a => exact .ok ⟨rfl, fun back heq => hv.inside (by rw [heq])⟩
      | _ => exact .refuse _

/-- Arguments are found at the same places. -/
theorem argument (h : E.Contexts pairs c c') (index : Nat) :
    Tells pairs (E.Same pairs) (c.argument index) (c'.argument index) := by
  have hcount := h.argumentCount
  simp only [Context.argument]
  generalize c.argumentCount = x, c'.argumentCount = y at hcount
  cases hcount with
  | error hf => exact .error hf
  | @ok count _ heq =>
    cases heq
    by_cases hindex : index < count
    · simp only [if_pos hindex]
      exact h.below _
    · simp only [if_neg hindex]
      exact .refuse _

theorem arguments (h : E.Contexts pairs c c') :
    Tells pairs (List.Forall₂ (E.Same pairs)) c.arguments c'.arguments := by
  have hcount := h.argumentCount
  obtain ⟨stack, hstack, -⟩ := h
  simp only [Context.arguments]
  generalize c.argumentCount = x, Context.argumentCount { c with stack := stack } = y at hcount ⊢
  cases hcount with
  | error hf => exact .error hf
  | @ok count _ heq =>
    cases heq
    by_cases hfp : 4 + count ≤ c.fp
    · simp only [if_pos hfp]
      exact .ok (hstack.extract _ _)
    · simp only [if_neg hfp]
      exact .refuse _

/-- Local variables are found at the same places. -/
theorem localValue (h : E.Contexts pairs c c') (offset : Nat) :
    Tells pairs (E.Same pairs) (c.localValue offset) (c'.localValue offset) := by
  obtain ⟨stack, hstack, -⟩ := h
  simp only [Context.localValue]
  have hslot := hstack.slot (c.fp + offset)
  generalize c.stack[c.fp + offset]? = a, stack[c.fp + offset]? = b at hslot ⊢
  cases hslot with
  | some hv => exact .ok hv
  | none => exact .refuse _

theorem setLocal (h : E.Contexts pairs c c') (offset : Nat) (hv : E.Same pairs v v') :
    E.Moves pairs Eq (Context.setLocal offset v c) (Context.setLocal offset v' c') := by
  obtain ⟨stack, hstack, hprogram⟩ := h
  simp only [Context.setLocal, hstack.size_eq]
  by_cases hslot : c.fp + offset < c.stack.size
  · rw [if_pos hslot, if_pos hslot]
    exact .ok (.of _ (hstack.setIfInBounds _ hv) hprogram) rfl
  · rw [if_neg hslot, if_neg hslot]
    exact .refuse _

theorem setArgumentArray (h : E.Contexts pairs c c') (hv : E.Same pairs v v') :
    E.Moves pairs Eq (Context.setArgumentArray v c) (Context.setArgumentArray v' c') := by
  obtain ⟨stack, hstack, hprogram⟩ := h
  simp only [Context.setArgumentArray, hstack.size_eq]
  by_cases hslot : 1 ≤ c.fp ∧ c.fp - 1 < c.stack.size
  · rw [if_pos hslot, if_pos hslot]
    exact .ok (.of _ (hstack.setIfInBounds _ hv) hprogram) rfl
  · rw [if_neg hslot, if_neg hslot]
    exact .refuse _

/-- The bookkeeping of a new frame names no container. -/
theorem slotwise_frame {returnTo : Option CodeAddress} (caller : Option Nat) (count locals : Nat)
    (hreturn : ∀ back, returnTo = some back → E.programs back.program) :
    Slotwise (E.Same pairs)
      (#[.address returnTo, .frame caller, Value.ofNat count, .unset] ++
        Array.replicate locals .unset)
      (#[.address returnTo, .frame caller, Value.ofNat count, .unset] ++
        Array.replicate locals .unset) := by
  refine Slotwise.append (.cons (.address hreturn) (.cons (.frame _) (.cons (.int _)
    (.cons .unset .nil)))) ?_
  refine List.forall₂_same.2 fun v hv => ?_
  rw [Array.toList_replicate] at hv
  rw [List.eq_of_mem_replicate hv]
  exact .unset

/-- The same frame is made on both sides. -/
theorem pushFrame (h : E.Contexts pairs c c') (returnTo : Option CodeAddress)
    (caller : Option Nat) (count : Nat) (program : ProgramRef)
    (hreturn : ∀ back, returnTo = some back → E.programs back.program)
    (hprogram : E.programs program) :
    E.Moves pairs Eq (Context.pushFrame returnTo caller count program c)
      (Context.pushFrame returnTo caller count program c') := by
  obtain ⟨stack, hstack, -⟩ := h
  simp only [Context.pushFrame, hstack.size_eq]
  by_cases hfew : c.stack.size < count
  · rw [if_pos hfew, if_pos hfew]
    exact .refuse _
  · rw [if_neg hfew, if_neg hfew]
    by_cases hfull : c.limit < c.stack.size + (4 + program.program.locals.length)
    · rw [if_pos hfull, if_pos hfull]
      exact .refuse _
    · rw [if_neg hfull, if_neg hfull]
      simp only [Array.append_assoc]
      exact .ok (.of _ (hstack.append (slotwise_frame _ _ _ hreturn)) hprogram) rfl

theorem enter (h : E.Contexts pairs c c') (count : Nat) {program : ProgramRef}
    (hprogram : E.programs program) :
    E.Moves pairs Eq (Context.enter count program c) (Context.enter count program c') := by
  have hpush := h.pushFrame (some c.pc) (some c.fp) count program
  obtain ⟨stack, -, hhere⟩ := h
  refine hpush (fun back heq => ?_) hprogram
  cases heq
  exact hhere

/-- The saved slots agree, so both sides go back to the same place. -/
theorem popFrame (h : E.Contexts pairs c c') :
    E.Moves pairs Eq (Context.popFrame c) (Context.popFrame c') := by
  have hcount := h.argumentCount
  have hframe := h.savedFrame
  have haddress := h.savedAddress
  obtain ⟨stack, hstack, hprogram⟩ := h
  simp only [Context.popFrame]
  generalize c.argumentCount = x, Context.argumentCount { c with stack := stack } = x' at hcount ⊢
  generalize c.savedFrame = y, Context.savedFrame { c with stack := stack } = y' at hframe ⊢
  generalize c.savedAddress = z, Context.savedAddress { c with stack := stack } = z' at haddress ⊢
  cases hcount with
  | error hf => exact .error hf
  | @ok count _ heq =>
    cases heq
    cases hframe with
    | error hf => exact .error hf
    | ok heq =>
      cases heq
      cases haddress with
      | error hf => exact .error hf
      | @ok returnTo _ hreturn =>
        obtain ⟨rfl, hback⟩ := hreturn
        by_cases hfp : 4 + count ≤ c.fp
        · simp only [if_pos hfp]
          refine .ok (.of _ (hstack.extract _ _) ?_) rfl
          cases returnTo with
          | none => exact hprogram
          | some back => exact hback back rfl
        · simp only [if_neg hfp]
          exact .refuse _

/-- A macro starts alike in both worlds. -/
theorem start {program : ProgramRef} {arguments : List Value}
    (harguments : ∀ v ∈ arguments, E.Same pairs v v) (hprogram : E.programs program) {limit : Nat}
    {target : Option DocumentHandle} (h : Context.start program arguments limit target = .ok c) :
    E.Contexts pairs c c := by
  simp only [Context.start] at h
  by_cases hmany : limit < arguments.length
  · rw [if_pos hmany] at h
    cases h
  · rw [if_neg hmany] at h
    have hblank : E.Contexts pairs ⟨arguments.toArray, limit, 0, ⟨program, 0⟩, target, target⟩
        ⟨arguments.toArray, limit, 0, ⟨program, 0⟩, target, target⟩ :=
      .of _ (List.forall₂_same.2 harguments) hprogram
    have hpush := hblank.pushFrame none none arguments.length program (fun _ => nofun) hprogram
    generalize Context.pushFrame none none arguments.length program
      ⟨arguments.toArray, limit, 0, ⟨program, 0⟩, target, target⟩ = result at h hpush
    cases result with
    | ok u d =>
      cases h
      cases hpush with
      | ok hc _ => exact hc
    | error e d => cases h

end Contexts

/-! ## States -/

/-- Two worlds have the symbols, and what is paired in their stores is the same. -/
structure Worlds (E : Setting) (pairs : Pairing) (w w' : World) : Prop where
  symbols : w.symbols = E.symbols
  symbols' : w'.symbols = E.symbols
  stores : E.Stores pairs w.store w'.store

/-- Two states differ in the names of containers, and in what the macro cannot come by. -/
structure States (E : Setting) (pairs : Pairing) (s s' : State) : Prop where
  worlds : E.Worlds pairs s.world s'.world
  contexts : E.Contexts pairs s.context s'.context

end Setting

end MacroMachine
