import MacroMachine.Proofs.Discipline

/-!
# Operations keep every discipline

One rule for each operation that instructions are made of.  The rules for the stack and the code
follow from the fields of the discipline, those for symbols and arrays from the shape of worlds
alone.
-/

namespace MacroMachine

/-! ## Reading a frame -/

namespace Context

variable {c : Context} {e : Fault}

theorem below_fault {distance : Nat} (h : c.below distance = .error e) :
    e = .malformed .noFrame := by
  unfold below at h
  split at h
  · split at h
    · cases h
    · cases h; rfl
  · cases h; rfl

theorem below_of_slot {distance : Nat} {v : Value} (hd : distance ≤ c.fp)
    (h : c.stack[c.fp - distance]? = some v) : c.below distance = .ok v := by
  simp only [below, if_pos hd, h]

theorem slot_of_below {distance : Nat} {v : Value} (h : c.below distance = .ok v) :
    c.stack[c.fp - distance]? = some v := by
  unfold below at h
  split at h
  · split at h
    · next hget =>
      cases h
      exact hget
    · cases h
  · cases h

theorem mem_of_below {distance : Nat} {v : Value} (h : c.below distance = .ok v) :
    v ∈ c.stack :=
  Array.mem_of_getElem? (slot_of_below h)

theorem argumentCount_of_slot {n : Int32} (hfp : 2 ≤ c.fp)
    (h : c.stack[c.fp - 2]? = some (.int n)) (hn : 0 ≤ n.toInt) :
    c.argumentCount = .ok n.toInt.toNat := by
  have hneg : ¬ n.toInt < 0 := by omega
  simp only [argumentCount, below_of_slot hfp h, if_neg hneg]

theorem argumentCount_fault (h : c.argumentCount = .error e) : e.IsFrame := by
  unfold argumentCount at h
  split at h
  · split at h
    · cases h; trivial
    · cases h
  · cases h; trivial
  · next hbelow =>
    cases h
    rw [below_fault hbelow]
    trivial

/-- An intact frame has a number of arguments, and they lie below it. -/
theorem argumentCount_of_intact (h : FrameIntact c.stack c.fp) :
    ∃ count, c.argumentCount = .ok count ∧ 4 + count ≤ c.fp := by
  obtain ⟨returnTo, caller, n, cached, -, -, hcount, -, hn, hfp⟩ := h
  exact ⟨n.toInt.toNat, argumentCount_of_slot (by omega) hcount hn, hfp⟩

theorem size_of_intact (h : FrameIntact c.stack c.fp) : c.fp ≤ c.stack.size := by
  obtain ⟨returnTo, caller, n, cached, -, -, -, hcached, hn, hfp⟩ := h
  have := (Array.getElem?_eq_some_iff.1 hcached).1
  omega

/-- A view of the frame: its faults are not about fetching, and on an intact frame they are not
about the frame either. -/
structure FrameView {α : Type} (f : Context → Except Fault α) : Prop where
  fetch : ∀ c e, f c = .error e → ¬ e.IsFetch
  frame : ∀ c e, FrameIntact c.stack c.fp → f c = .error e → ¬ e.IsFrame

theorem frameView_argumentCount : FrameView argumentCount where
  fetch _ _ h := (argumentCount_fault h).not_isFetch
  frame c e hintact h := by
    obtain ⟨count, hcount, -⟩ := argumentCount_of_intact hintact
    rw [hcount] at h
    cases h

theorem frameView_argumentArray : FrameView argumentArray where
  fetch c e h := by
    rw [below_fault h]
    exact not_false
  frame c e hintact h := by
    obtain ⟨returnTo, caller, n, cached, -, -, -, hcached, hn, hfp⟩ := hintact
    rw [argumentArray, below_of_slot (by omega) hcached] at h
    cases h

theorem frameView_argument (index : Nat) : FrameView (argument index) where
  fetch c e h := by
    unfold argument at h
    split at h
    · split at h
      · rw [below_fault h]
        exact not_false
      · cases h; exact not_false
    · next hcount =>
      cases h
      exact (argumentCount_fault hcount).not_isFetch
  frame c e hintact h := by
    obtain ⟨count, hcount, hfp⟩ := argumentCount_of_intact hintact
    have hsize := size_of_intact hintact
    simp only [argument, hcount] at h
    split at h
    · next hlt =>
      obtain ⟨v, hv⟩ : ∃ v, c.stack[c.fp - (4 + count - index)]? = some v := by
        refine ⟨_, Array.getElem?_eq_getElem ?_⟩
        omega
      rw [below_of_slot (by omega) hv] at h
      cases h
    · cases h; exact not_false

theorem frameView_arguments : FrameView arguments where
  fetch c e h := by
    unfold arguments at h
    split at h
    · split at h
      · cases h
      · cases h; exact not_false
    · next hcount =>
      cases h
      exact (argumentCount_fault hcount).not_isFetch
  frame c e hintact h := by
    obtain ⟨count, hcount, hfp⟩ := argumentCount_of_intact hintact
    simp only [arguments, hcount, if_pos hfp] at h
    cases h

theorem argumentCount_eq_ok {count : Nat} (h : c.argumentCount = .ok count) :
    ∃ n : Int32, c.stack[c.fp - 2]? = some (.int n) ∧ 0 ≤ n.toInt ∧ count = n.toInt.toNat := by
  unfold argumentCount at h
  split at h
  · next n hbelow =>
    split at h
    · cases h
    · next hneg =>
      cases h
      exact ⟨n, slot_of_below hbelow, by omega, rfl⟩
  · cases h
  · cases h

theorem savedFrame_eq_ok {caller : Option Nat} (h : c.savedFrame = .ok caller) :
    c.stack[c.fp - 3]? = some (.frame caller) := by
  unfold savedFrame at h
  split at h
  · next hbelow =>
    cases h
    exact slot_of_below hbelow
  · cases h
  · cases h

theorem savedFrame_fault (h : c.savedFrame = .error e) : e.IsFrame := by
  unfold savedFrame at h
  split at h
  · cases h
  · cases h; trivial
  · next hbelow =>
    cases h
    rw [below_fault hbelow]
    trivial

theorem savedAddress_eq_ok {returnTo : Option CodeAddress} (h : c.savedAddress = .ok returnTo) :
    c.stack[c.fp - 4]? = some (.address returnTo) := by
  unfold savedAddress at h
  split at h
  · next hbelow =>
    cases h
    exact slot_of_below hbelow
  · cases h
  · cases h

theorem savedAddress_fault (h : c.savedAddress = .error e) : e.IsFrame := by
  unfold savedAddress at h
  split at h
  · cases h
  · cases h; trivial
  · next hbelow =>
    cases h
    rw [below_fault hbelow]
    trivial

/-- Leaving a frame whose bookkeeping can be read. -/
theorem popFrame_of_slots {returnTo : Option CodeAddress} {caller : Option Nat} {n : Int32}
    (haddress : c.stack[c.fp - 4]? = some (.address returnTo))
    (hframe : c.stack[c.fp - 3]? = some (.frame caller))
    (hcount : c.stack[c.fp - 2]? = some (.int n)) (hn : 0 ≤ n.toInt)
    (hfp : 4 + n.toInt.toNat ≤ c.fp) :
    popFrame c = .ok returnTo { c with
      stack := c.stack.extract 0 (c.fp - (4 + n.toInt.toNat))
      fp := caller.getD 0
      pc := returnTo.getD c.pc } := by
  have haddress' : c.savedAddress = .ok returnTo := by
    simp only [savedAddress, below_of_slot (by omega) haddress]
  have hframe' : c.savedFrame = .ok caller := by
    simp only [savedFrame, below_of_slot (by omega) hframe]
  simp only [popFrame, argumentCount_of_slot (by omega) hcount hn, hframe', haddress', if_pos hfp]

/-- A frame is left only if its bookkeeping can be read. -/
theorem popFrame_eq_ok {returnTo : Option CodeAddress} {c' : Context}
    (h : popFrame c = .ok returnTo c') :
    ∃ (caller : Option Nat) (n : Int32), c.stack[c.fp - 4]? = some (.address returnTo) ∧
      c.stack[c.fp - 3]? = some (.frame caller) ∧ c.stack[c.fp - 2]? = some (.int n) ∧
      0 ≤ n.toInt ∧ 4 + n.toInt.toNat ≤ c.fp ∧
      c' = { c with
        stack := c.stack.extract 0 (c.fp - (4 + n.toInt.toNat))
        fp := caller.getD 0
        pc := returnTo.getD c.pc } := by
  unfold popFrame at h
  split at h
  · cases h
  · cases h
  · cases h
  · next hcount hframe haddress =>
    split at h
    · next hfp =>
      cases h
      obtain ⟨n, hslot, hn, rfl⟩ := argumentCount_eq_ok hcount
      exact ⟨_, n, savedAddress_eq_ok haddress, savedFrame_eq_ok hframe, hslot, hn, hfp, rfl⟩
    · cases h

theorem popFrame_fault {c' : Context} (h : popFrame c = .error e c') : e.IsFrame := by
  unfold popFrame at h
  split at h
  · next hcount => cases h; exact argumentCount_fault hcount
  · next hframe _ => cases h; exact savedFrame_fault hframe
  · next haddress _ _ => cases h; exact savedAddress_fault haddress
  · split at h
    · cases h
    · cases h; trivial

/-- A frame is made where there is room for it. -/
theorem pushFrame_of_room {count : Nat} {p : ProgramRef} (returnTo : Option CodeAddress)
    (caller : Option Nat) (hcount : count ≤ c.stack.size)
    (hroom : c.stack.size + (4 + p.program.locals.length) ≤ c.limit) :
    pushFrame returnTo caller count p c = .ok () { c with
      stack := withFrame c.stack returnTo caller count p.program.locals.length
      fp := c.stack.size + 4
      pc := ⟨p, 0⟩ } := by
  simp only [pushFrame, if_neg (Nat.not_lt.2 hcount), if_neg (Nat.not_lt.2 hroom)]
  rfl

/-- A new frame is made if its arguments are there and it fits. -/
theorem pushFrame_cases (returnTo : Option CodeAddress) (caller : Option Nat) (count : Nat)
    (p : ProgramRef) (c : Context) :
    (count ≤ c.stack.size ∧ c.stack.size + (4 + p.program.locals.length) ≤ c.limit ∧
      pushFrame returnTo caller count p c = .ok () { c with
        stack := withFrame c.stack returnTo caller count p.program.locals.length
        fp := c.stack.size + 4
        pc := ⟨p, 0⟩ }) ∨
    ∃ e, e.Ordinary ∧ pushFrame returnTo caller count p c = .error e c := by
  by_cases hcount : c.stack.size < count
  · refine .inr ⟨.stackUnderflow, ⟨not_false, not_false⟩, ?_⟩
    simp only [pushFrame, if_pos hcount]
  · by_cases hfull : c.limit < c.stack.size + (4 + p.program.locals.length)
    · refine .inr ⟨.stackOverflow, ⟨not_false, not_false⟩, ?_⟩
      simp only [pushFrame, if_neg hcount, if_pos hfull]
    · have hroom := Nat.not_lt.1 hfull
      exact .inl ⟨Nat.not_lt.1 hcount, hroom,
        pushFrame_of_room returnTo caller (Nat.not_lt.1 hcount) hroom⟩

/-- A context starts if there is room for its arguments and its frame. -/
theorem start_of_room {p : ProgramRef} {arguments : List Value} {limit : Nat}
    {target : Option DocumentHandle}
    (h : arguments.length + (4 + p.program.locals.length) ≤ limit) :
    start p arguments limit target = .ok
      { stack := withFrame arguments.toArray none none arguments.length p.program.locals.length
        limit := limit, fp := arguments.length + 4, pc := ⟨p, 0⟩
        runTarget := target, focusTarget := target } := by
  have hroom : ¬ limit < arguments.length := by omega
  let blank : Context :=
    { stack := arguments.toArray, limit := limit, fp := 0, pc := ⟨p, 0⟩
      runTarget := target, focusTarget := target }
  have hsize : arguments.length ≤ blank.stack.size := Nat.le_refl _
  unfold start
  dsimp only
  rw [if_neg hroom, pushFrame_of_room none none hsize h]
  rfl

/-- A context starts with the outermost frame over its arguments. -/
theorem start_eq_ok {p : ProgramRef} {arguments : List Value} {limit : Nat}
    {target : Option DocumentHandle} (h : start p arguments limit target = .ok c) :
    arguments.length + (4 + p.program.locals.length) ≤ limit ∧
      c = { stack := withFrame arguments.toArray none none arguments.length p.program.locals.length
            limit := limit, fp := arguments.length + 4, pc := ⟨p, 0⟩
            runTarget := target, focusTarget := target } := by
  unfold start at h
  dsimp only at h
  split at h
  · cases h
  · rcases pushFrame_cases none none arguments.length p
      { stack := arguments.toArray, limit := limit, fp := 0, pc := ⟨p, 0⟩
        runTarget := target, focusTarget := target } with ⟨-, hlimit, heq⟩ | ⟨e, -, heq⟩
    · rw [heq] at h
      cases h
      exact ⟨hlimit, rfl⟩
    · rw [heq] at h
      cases h

end Context

/-! ## Values in arrays -/

namespace Entries

variable {α : Type} {value : α → Prop} {e : Entries α}

theorem all_empty : (empty : Entries α).All value := by
  intro entry hentry
  cases hentry

theorem All.insert (h : e.All value) (key : String) {v : α} (hv : value v) :
    (e.insert key v).All value := by
  intro entry hentry
  rcases mem_place hentry with hentry | rfl
  · exact h entry hentry
  · exact hv

theorem All.erase (h : e.All value) (key : String) : (e.erase key).All value := by
  intro entry hentry
  exact h entry (List.mem_filter.1 hentry).1

theorem all_ofList {rows : List (String × α)} (h : ∀ row ∈ rows, value row.2) :
    (ofList rows).All value := by
  have hfold : ∀ e : Entries α, e.All value →
      (rows.foldl (fun e entry => e.insert entry.1 entry.2) e).All value := by
    induction rows with
    | nil => intro e he; exact he
    | cons row rest ih =>
      intro e he
      refine ih (fun r hr => h r (List.mem_cons_of_mem _ hr)) _ ?_
      exact he.insert row.1 (h row List.mem_cons_self)
  exact hfold empty all_empty

theorem All.get? (h : e.All value) {key : String} {v : α} (hget : e.get? key = some v) :
    value v :=
  h (key, v) (mem_of_get? hget)

/-- The values of a side satisfy a predicate. -/
def SideAll (value : α → Prop) : Side α → Prop
  | .left v => value v
  | .right v => value v
  | .both u v => value u ∧ value v

theorem All.mergeWith {left right : Entries α} {pick : Side α → Option α}
    (hpick : ∀ side v, SideAll value side → pick side = some v → value v) (hl : left.All value)
    (hr : right.All value) : (Entries.mergeWith pick left right).All value := by
  intro entry hentry
  obtain ⟨side, hside, hv⟩ := mem_mergeRows hentry
  refine hpick side entry.2 ?_ hv
  cases side with
  | left u => exact hl _ hside
  | right v => exact hr _ hside
  | both u v => exact ⟨hl _ hside.1, hr _ hside.2⟩

end Entries

namespace Discipline

variable {I : Discipline} {a b : CodeAddress} {k k' : Nat} {known : Option SymbolId}
  {w w' : MacroMachine.World} {c c' : Context}

/-! ## Changes of a state -/

/-- A change of the context alone. -/
theorem At.withContext (h : I.At a k known ⟨w, c⟩) (hvalues : ∀ v ∈ c'.stack, I.Value v)
    (hframes : I.frames c'.stack c'.limit c'.fp) (hpc : c'.pc = b)
    (hoperands : I.framed → c'.fp + k' ≤ c'.stack.size) : I.At b k' known ⟨w, c'⟩ :=
  ⟨⟨h.sound.world, hvalues, hframes⟩, hpc, hoperands, h.assignable⟩

/-- A change of the world alone that turns no symbol into a function. -/
theorem At.withWorld (h : I.At a k known ⟨w, c⟩) (hworld : I.World w')
    (hkinds : ∀ id symbol, w'.symbols.get? id = some symbol → symbol.kind = .function →
      ∃ old, w.symbols.get? id = some old ∧ old.kind = .function) : I.At a k known ⟨w', c⟩ := by
  refine ⟨⟨hworld, h.sound.values, h.sound.frames⟩, h.pc, h.operands, ?_⟩
  intro id hid symbol hsymbol hkind
  obtain ⟨old, hold, hkind⟩ := hkinds id symbol hsymbol hkind
  exact h.assignable id hid old hold hkind

theorem At.fewer (h : I.At a k known s) (hk : k' ≤ k) : I.At a k' known s :=
  ⟨h.sound, h.pc, fun hf => Nat.le_trans (Nat.add_le_add_left hk _) (h.operands hf), h.assignable⟩

theorem At.ready (h : I.At a k known s) {marker : Bool} (hc : I.control [] marker a) :
    I.Ready marker s :=
  ⟨h.sound, h.pc ▸ hc⟩

/-- Between two instructions the code goes on somewhere. -/
theorem Meets.ready {α : Type} {marker : Bool} {x : Execution α} {post : α → State → Prop}
    (h : ∀ a, I.control [] marker a → I.Meets (I.At a 0 none) x post) :
    I.Meets (I.Ready marker) x post := by
  intro s hs
  refine h s.context.pc hs.control s ⟨hs.sound, rfl, fun hf => ?_, fun _ hid => by cases hid⟩
  exact I.covers hf hs.sound.frames

/-! ## Executions without effect -/

section Rules

variable {α : Type} {post : α → State → Prop}

theorem raise_meets {f : MacroMachine.Fault} (h : I.Fault f) :
    I.Meets (I.At a k known) (Execution.raise f) post := by
  intro s hs
  exact ⟨hs.sound.world, fun f' hf' => by cases hf'; exact h⟩

/-- A transition is one of the context. -/
theorem world_of_transition {t : Transition α} {s s' : State} {x : α}
    (h : Execution.transition t s = .ok x s') : s'.world = s.world := by
  obtain ⟨w, c⟩ := s
  simp only [Execution.transition] at h
  split at h
  · cases h
    rfl
  · cases h

theorem transition_meets {t : Transition α}
    (h : ∀ w c, I.At a k known ⟨w, c⟩ → match t c with
      | .ok x c' => post x ⟨w, c'⟩
      | .error e _ => I.Fault e) :
    I.Meets (I.At a k known) (Execution.transition t) post := by
  rintro ⟨w, c⟩ hs
  have ht := h w c hs
  simp only [Execution.transition]
  cases heq : t c with
  | ok x c' =>
    rw [heq] at ht
    exact ht
  | error e c' =>
    rw [heq] at ht
    exact ⟨hs.sound.world, fun f hf => by cases hf; exact ht⟩

theorem view_meets {f : Context → Except MacroMachine.Fault α} {fact : α → Prop}
    (h : ∀ w c, I.At a k known ⟨w, c⟩ → match f c with
      | .ok x => fact x
      | .error e => I.Fault e) :
    I.Meets (I.At a k known) (Execution.view f) fun x s => fact x ∧ I.At a k known s := by
  rintro ⟨w, c⟩ hs
  have hf := h w c hs
  simp only [Execution.view]
  cases heq : f c with
  | ok x =>
    rw [heq] at hf
    exact ⟨hf, hs⟩
  | error e =>
    rw [heq] at hf
    exact ⟨hs.sound.world, fun f' hf' => by cases hf'; exact hf⟩

theorem ofExcept_meets {x : Except MacroMachine.Fault α} (h : ∀ e, x = .error e → I.Fault e) :
    I.Meets (I.At a k known) (Execution.ofExcept x) fun _ => I.At a k known := by
  cases x with
  | ok v => exact .pure fun s hs => hs
  | error e => exact raise_meets (h e rfl)

theorem convert_meets {x : Except Mismatch α} :
    I.Meets (I.At a k known) (Execution.convert x) fun v s => x = .ok v ∧ I.At a k known s := by
  cases x with
  | ok v => exact .pure fun s hs => ⟨rfl, hs⟩
  | error why => exact raise_meets (fault_of_ordinary ⟨not_false, not_false⟩)

theorem world_meets : I.Meets (I.At a k known) Execution.world
    fun w s => I.World w ∧ I.At a k known s :=
  fun _ hs => ⟨hs.sound.world, hs⟩

theorem context_meets : I.Meets (I.At a k known) Execution.context
    fun c s => c.pc = a ∧ I.At a k known s :=
  fun _ hs => ⟨hs.pc, hs⟩

theorem symbolName_meets (id : SymbolId) :
    I.Meets (I.At a k known) (Execution.symbolName id) fun _ => I.At a k known :=
  fun _ hs => hs

end Rules

/-! ## The stack -/

theorem push_meets {v : MacroMachine.Value} (hv : I.Value v) :
    I.Meets (I.At a k known) (Execution.push v) fun _ => I.At a (k + 1) known := by
  apply transition_meets
  intro w c h
  by_cases hfull : c.limit ≤ c.stack.size
  · simp only [Context.push, if_pos hfull]
    exact fault_of_ordinary ⟨not_false, not_false⟩
  · simp only [Context.push, if_neg hfull]
    have hlt : c.stack.size < c.limit := by omega
    have hroom : I.framed → c.fp + k ≤ c.stack.size := h.operands
    refine h.withContext ?_ (I.push v h.sound.frames hlt) h.pc ?_
    · intro u hu
      rcases Array.mem_push.1 hu with hu | hu
      · exact h.sound.values u hu
      · exact hu ▸ hv
    · intro hf
      have := hroom hf
      simp only [Array.size_push]
      omega

theorem mem_of_mem_extract {α : Type} {xs : Array α} {i j : Nat} {x : α}
    (h : x ∈ xs.extract i j) : x ∈ xs := by
  obtain ⟨n, hn, rfl⟩ := Array.mem_extract_iff_getElem.1 h
  exact Array.getElem_mem _

/-- Whatever takes values off the stack leaves a part of it that keeps the discipline. -/
theorem At.shrink {n : Nat} (h : I.At a (k + n) known ⟨w, c⟩) (hn : n ≤ c.stack.size) :
    I.At a k known ⟨w, { c with stack := c.stack.extract 0 (c.stack.size - n) }⟩ := by
  have hroom : I.framed → c.fp + (k + n) ≤ c.stack.size := h.operands
  have hshrink : I.framed → c.fp + n ≤ c.stack.size := fun hf => by
    have := hroom hf
    omega
  refine h.withContext ?_ (I.shrink h.sound.frames hn hshrink) h.pc ?_
  · intro v hv
    exact h.sound.values v (mem_of_mem_extract hv)
  · intro hf
    have := hroom hf
    simp only [Array.size_extract]
    omega

theorem pop_meets : I.Meets (I.At a (k + 1) known) Execution.pop
    fun v s => I.Value v ∧ I.At a k known s := by
  apply transition_meets
  intro w c h
  cases hback : c.stack.back? with
  | none =>
    simp only [Context.pop, hback]
    exact fault_of_ordinary ⟨not_false, not_false⟩
  | some v =>
    simp only [Context.pop, hback]
    have hpos : 1 ≤ c.stack.size := by
      rw [Array.back?_eq_getElem?] at hback
      have := (Array.getElem?_eq_some_iff.1 hback).1
      omega
    refine ⟨h.sound.values v (Array.mem_of_back? hback), ?_⟩
    rw [← Array.extract_eq_pop rfl]
    exact h.shrink hpos

theorem drop_meets {n : Nat} (hk : k = k' + n) :
    I.Meets (I.At a k known) (Execution.transition (Context.drop n))
      fun _ => I.At a k' known := by
  subst hk
  apply transition_meets
  intro w c h
  by_cases hn : n ≤ c.stack.size
  · simp only [Context.drop, if_pos hn]
    exact h.shrink hn
  · simp only [Context.drop, if_neg hn]
    exact fault_of_ordinary ⟨not_false, not_false⟩

theorem popMany_meets {n : Nat} (hk : k = k' + n) :
    I.Meets (I.At a k known) (Execution.transition (Context.popMany n))
      fun vs s => (∀ v ∈ vs, I.Value v) ∧ I.At a k' known s := by
  subst hk
  apply transition_meets
  intro w c h
  by_cases hn : n ≤ c.stack.size
  · simp only [Context.popMany, if_pos hn]
    refine ⟨?_, h.shrink hn⟩
    intro v hv
    exact h.sound.values v (mem_of_mem_extract (Array.mem_toList_iff.1 hv))
  · simp only [Context.popMany, if_neg hn]
    exact fault_of_ordinary ⟨not_false, not_false⟩

theorem peek_meets (depth : Nat) :
    I.Meets (I.At a k known) (Execution.view (Context.peek depth))
      fun v s => I.Value v ∧ I.At a k known s := by
  apply view_meets
  intro w c h
  unfold Context.peek
  split
  · next v heq =>
    split at heq
    · split at heq
      · next hget =>
        cases heq
        exact h.sound.values _ (Array.mem_of_getElem? hget)
      · cases heq
    · cases heq
  · next e heq =>
    have he : e = .stackUnderflow := by
      split at heq
      · split at heq
        · cases heq
        · cases heq; rfl
      · cases heq; rfl
    subst he
    exact fault_of_ordinary ⟨not_false, not_false⟩

theorem top_meets (n : Nat) :
    I.Meets (I.At a k known) (Execution.view (Context.top n))
      fun _ => I.At a k known := by
  have h : I.Meets (I.At a k known) (Execution.view (Context.top n))
      fun _ s => True ∧ I.At a k known s := by
    apply view_meets
    intro w c _
    by_cases hn : n ≤ c.stack.size
    · simp only [Context.top, if_pos hn]
    · simp only [Context.top, if_neg hn]
      exact fault_of_ordinary ⟨not_false, not_false⟩
  exact h.after fun _ _ hs => hs.2

/-! ## The code -/

theorem At.moved (h : I.At a k known ⟨w, c⟩) (b : CodeAddress) :
    I.At b k known ⟨w, { c with pc := b }⟩ :=
  h.withContext h.sound.values h.sound.frames rfl h.operands

section Code

variable {role : OperandRole} {rest : List OperandRole} {marker : Bool}

/-- A fault in fetching an operand is excluded if the operand can be read. -/
theorem fault_of_unread {f : MacroMachine.Fault} (hc : I.control (role :: rest) marker a)
    (hread : ¬ role.Reads a) (hframe : ¬ f.IsFrame) : I.Fault f :=
  ⟨fun hchecked => absurd (I.reads hchecked hc) hread, fun _ => hframe⟩

theorem fetchSymbol_meets (hc : I.control (.symbol :: rest) marker a) :
    I.Meets (I.At a k known) (Execution.transition Context.fetchSymbol)
      fun id s => a.slot? = some (.symbol id) ∧ I.At (a.advance 1) k known s := by
  apply transition_meets
  intro w c h
  have hpc : c.pc = a := h.pc
  unfold Context.fetchSymbol
  rw [hpc]
  split
  · next id c' heq =>
    split at heq
    · next hslot =>
      cases heq
      exact ⟨hslot, h.moved _⟩
    · cases heq
  · next e c' heq =>
    split at heq
    · cases heq
    · next hslot =>
      cases heq
      refine fault_of_unread hc ?_ not_false
      rintro ⟨id, hid⟩
      exact hslot id hid

/-- An immediate operand in any of its three roles. -/
theorem fetchImmediate_meets (hc : I.control (role :: rest) marker a) (hrole : role ≠ .symbol) :
    I.Meets (I.At a k known) (Execution.transition Context.fetchImmediate)
      fun n s => a.slot? = some (.immediate n) ∧ I.At (a.advance 1) k known s := by
  apply transition_meets
  intro w c h
  have hpc : c.pc = a := h.pc
  unfold Context.fetchImmediate
  rw [hpc]
  split
  · next n c' heq =>
    split at heq
    · next hslot =>
      cases heq
      exact ⟨hslot, h.moved _⟩
    · cases heq
  · next e c' heq =>
    split at heq
    · cases heq
    · next hslot =>
      cases heq
      refine fault_of_unread hc ?_ not_false
      cases role with
      | symbol => exact absurd rfl hrole
      | count => rintro ⟨n, hn, -⟩; exact hslot n hn
      | flag => rintro ⟨n, hn⟩; exact hslot n hn
      | branch => rintro ⟨n, hn, -, -⟩; exact hslot n hn

/-- A count is an immediate operand that is then checked. -/
theorem transition_fetchCount : Execution.transition Context.fetchCount = do
    let n ← Execution.transition Context.fetchImmediate
    if n.toInt < 0 then Execution.raise (.malformed (.negativeCount n))
    else return n.toInt.toNat := by
  funext ⟨w, c⟩
  simp only [Execution.transition, Context.fetchCount, bind, EStateM.bind]
  cases Context.fetchImmediate c with
  | error e c' => rfl
  | ok n c' =>
    by_cases hneg : n.toInt < 0
    · simp only [if_pos hneg]
      rfl
    · simp only [if_neg hneg]
      rfl

theorem fetchCount_meets (hc : I.control (.count :: rest) marker a) :
    I.Meets (I.At a k known) (Execution.transition Context.fetchCount)
      fun n s => n = a.number.toNat ∧ I.At (a.advance 1) k known s := by
  rw [transition_fetchCount]
  refine .bind (fetchImmediate_meets hc (by simp)) fun n => .given fun hslot => ?_
  split
  · next hneg =>
    apply raise_meets
    refine fault_of_unread hc ?_ not_false
    rintro ⟨m, hm, hpos⟩
    rw [hslot] at hm
    cases hm
    omega
  · refine .pure fun s hs => ⟨?_, hs⟩
    rw [CodeAddress.number, hslot]

/-- A branch operand is an immediate operand that is then turned into a slot. -/
theorem transition_fetchBranch (site : CodeAddress) (s : State) (h : s.context.pc = site) :
    Execution.transition Context.fetchBranch s = (do
      let n ← Execution.transition Context.fetchImmediate
      if 0 ≤ (site.index : Int) + n.toInt ∧
          (site.index : Int) + n.toInt ≤ site.program.program.size then
        return ((site.index : Int) + n.toInt).toNat
      else Execution.raise (.malformed (.branchOutOfRange site.index))) s := by
  obtain ⟨w, c⟩ := s
  cases h
  simp only [Execution.transition, Context.fetchBranch, bind, EStateM.bind]
  cases hfetch : Context.fetchImmediate c with
  | error e c' => rfl
  | ok n c' =>
    have hprogram : c'.pc.program = c.pc.program := by
      unfold Context.fetchImmediate at hfetch
      split at hfetch
      · cases hfetch; rfl
      · cases hfetch
    dsimp only
    rw [hprogram]
    by_cases hrange : 0 ≤ (c.pc.index : Int) + n.toInt ∧
        (c.pc.index : Int) + n.toInt ≤ c.pc.program.program.size
    · simp only [if_pos hrange]
      rfl
    · simp only [if_neg hrange]
      rfl

/-- A branch operand leads to a place where control may go on. -/
theorem fetchBranch_meets (hc : I.control (.branch :: rest) marker a) :
    I.Meets (I.At a k known) (Execution.transition Context.fetchBranch)
      fun t s => I.control [] false (a.jump t) ∧ I.At (a.advance 1) k known s := by
  intro s hs
  rw [transition_fetchBranch a s hs.pc]
  revert s
  show I.Meets _ _ _
  refine .bind (fetchImmediate_meets hc (by simp)) fun n => .given fun hslot => ?_
  split
  · next hrange =>
    refine .pure fun s hs => ⟨I.landing hc hslot ?_ ?_, hs⟩
    · omega
    · omega
  · next hrange =>
    apply raise_meets
    refine fault_of_unread hc ?_ not_false
    rintro ⟨m, hm, hlow, hhigh⟩
    rw [hslot] at hm
    cases hm
    exact hrange ⟨hlow, hhigh⟩

end Code

theorem jump_meets (target : Nat) :
    I.Meets (I.At a k known) (Execution.transition (Context.jump target))
      fun _ => I.At (a.jump target) k known := by
  apply transition_meets
  intro w c h
  have hpc : c.pc = a := h.pc
  simp only [Context.jump, hpc]
  exact h.moved _

theorem skip_meets :
    I.Meets (I.At a k known) (Execution.transition Context.skip)
      fun _ => I.At (a.advance 1) k known := by
  apply transition_meets
  intro w c h
  have hpc : c.pc = a := h.pc
  simp only [Context.skip, hpc]
  exact h.moved _

/-! ## The current frame -/

theorem intact_of_at (h : I.At a k known ⟨w, c⟩) (hc : I.counted) : FrameIntact c.stack c.fp :=
  I.intact hc h.sound.frames

theorem frameView_meets {α : Type} {f : Context → Except MacroMachine.Fault α} {fact : α → Prop}
    (hview : Context.FrameView f)
    (hfact : ∀ c x, (∀ v ∈ c.stack, I.Value v) → f c = .ok x → fact x) :
    I.Meets (I.At a k known) (Execution.view f) fun x s => fact x ∧ I.At a k known s := by
  apply view_meets
  intro w c h
  split
  · next x heq => exact hfact c x h.sound.values heq
  · next e heq =>
    exact ⟨fun _ => hview.fetch c e heq, fun hf => hview.frame c e (intact_of_at h hf) heq⟩

theorem argumentCount_meets :
    I.Meets (I.At a k known) (Execution.view Context.argumentCount)
      fun _ => I.At a k known := by
  have h : I.Meets (I.At a k known) (Execution.view Context.argumentCount)
      fun _ s => True ∧ I.At a k known s :=
    frameView_meets Context.frameView_argumentCount fun _ _ _ _ => trivial
  exact h.after fun _ _ hs => hs.2

theorem argumentArray_meets :
    I.Meets (I.At a k known) (Execution.view Context.argumentArray)
      fun v s => I.Value v ∧ I.At a k known s :=
  frameView_meets Context.frameView_argumentArray fun _ v hvalues h =>
    hvalues v (Context.mem_of_below h)

theorem argument_meets (index : Nat) :
    I.Meets (I.At a k known) (Execution.view (Context.argument index))
      fun v s => I.Value v ∧ I.At a k known s := by
  refine frameView_meets (Context.frameView_argument index) fun c v hvalues h => ?_
  unfold Context.argument at h
  split at h
  · split at h
    · exact hvalues v (Context.mem_of_below h)
    · cases h
  · cases h

theorem arguments_meets :
    I.Meets (I.At a k known) (Execution.view Context.arguments)
      fun vs s => (∀ v ∈ vs, I.Value v) ∧ I.At a k known s := by
  refine frameView_meets Context.frameView_arguments fun c vs hvalues h v hv => ?_
  unfold Context.arguments at h
  split at h
  · split at h
    · cases h
      exact hvalues v (mem_of_mem_extract (Array.mem_toList_iff.1 hv))
    · cases h
  · cases h

theorem localValue_meets (offset : Nat) :
    I.Meets (I.At a k known) (Execution.view (Context.localValue offset))
      fun v s => I.Value v ∧ I.At a k known s := by
  apply view_meets
  intro w c h
  cases hget : c.stack[c.fp + offset]? with
  | none =>
    simp only [Context.localValue, hget]
    exact fault_of_ordinary ⟨not_false, not_false⟩
  | some v =>
    simp only [Context.localValue, hget]
    exact h.sound.values v (Array.mem_of_getElem? hget)

/-- A slot of the stack is replaced. -/
theorem At.stored {i : Nat} {v : MacroMachine.Value} (h : I.At a k known ⟨w, c⟩) (hv : I.Value v)
    (hframes : I.frames (c.stack.setIfInBounds i v) c.limit c.fp) :
    I.At a k known ⟨w, { c with stack := c.stack.setIfInBounds i v }⟩ := by
  have hroom : I.framed → c.fp + k ≤ c.stack.size := h.operands
  refine h.withContext ?_ hframes h.pc ?_
  · intro u hu
    rcases Array.mem_or_eq_of_mem_setIfInBounds hu with hu | hu
    · exact h.sound.values u hu
    · exact hu ▸ hv
  · simp only [Array.size_setIfInBounds]
    exact hroom

theorem setLocal_meets (offset : Nat) {v : MacroMachine.Value} (hv : I.Value v) :
    I.Meets (I.At a k known) (Execution.transition (Context.setLocal offset v))
      fun _ => I.At a k known := by
  apply transition_meets
  intro w c h
  by_cases hlt : c.fp + offset < c.stack.size
  · simp only [Context.setLocal, if_pos hlt]
    exact h.stored hv (I.set v h.sound.frames (Nat.le_add_right _ _))
  · simp only [Context.setLocal, if_neg hlt]
    exact fault_of_ordinary ⟨not_false, not_false⟩

theorem setArgumentArray_meets (ref : ArrayRef) :
    I.Meets (I.At a k known) (Execution.transition (Context.setArgumentArray (.array ref)))
      fun _ => I.At a k known := by
  apply transition_meets
  intro w c h
  by_cases hlt : 1 ≤ c.fp ∧ c.fp - 1 < c.stack.size
  · simp only [Context.setArgumentArray, if_pos hlt]
    exact h.stored (value_of_kind (by simp [MacroMachine.Value.kind])) (I.cache ref h.sound.frames)
  · simp only [Context.setArgumentArray, if_neg hlt]
    refine ⟨fun _ => not_false, fun hf => ?_⟩
    have hintact := intact_of_at h hf
    obtain ⟨count, -, hfp⟩ := Context.argumentCount_of_intact hintact
    have hsize := Context.size_of_intact hintact
    omega

theorem control_any {marker : Bool} (h : I.control [] marker a) : I.control [] true a := by
  cases marker with
  | false => exact I.weaken h
  | true => exact h

/-- What a new frame puts on the stack may be there. -/
theorem value_of_mem_withFrame {stack : Array MacroMachine.Value} {returnTo : Option CodeAddress}
    {caller : Option Nat} {count locals : Nat} (hvalues : ∀ v ∈ stack, I.Value v)
    (hreturn : I.Value (.address returnTo)) :
    ∀ v ∈ withFrame stack returnTo caller count locals, I.Value v := by
  intro v hv
  rcases Array.mem_append.1 hv with hv | hv
  · rcases Array.mem_append.1 hv with hv | hv
    · exact hvalues v hv
    · simp only [List.mem_toArray, List.mem_cons, List.not_mem_nil, or_false] at hv
      rcases hv with rfl | rfl | rfl | rfl
      · exact hreturn
      · exact value_of_kind (by simp [MacroMachine.Value.kind])
      · exact value_of_kind (by simp [MacroMachine.Value.kind, MacroMachine.Value.ofNat])
      · exact value_of_kind (by simp [MacroMachine.Value.kind])
  · rw [Array.mem_replicate] at hv
    rw [hv.2]
    exact value_of_kind (by simp [MacroMachine.Value.kind])

/-- Entering a program leads to its beginning; the place left behind is saved. -/
theorem Ready.enter {marker : Bool} {p : ProgramRef} {count : Nat} (h : I.Ready marker ⟨w, c⟩)
    (hp : I.program p) (hroom : I.framed → c.fp + count ≤ c.stack.size)
    (hfew : I.counted → count < 2147483648) :
    match Context.enter count p c with
    | .ok () c' => I.Ready false ⟨w, c'⟩
    | .error e c' => e.Ordinary ∧ c' = c := by
  have hreturn : I.Value (.address (some c.pc)) := by
    intro b hb
    cases hb
    exact control_any h.control
  rcases Context.pushFrame_cases (some c.pc) (some c.fp) count p c with
    ⟨hcount, hlimit, heq⟩ | ⟨e, he, heq⟩
  · rw [Context.enter, heq]
    refine ⟨⟨h.sound.world, value_of_mem_withFrame h.sound.values hreturn, ?_⟩, I.enter hp⟩
    exact I.call c.pc h.sound.frames hcount hroom hfew hlimit
  · rw [Context.enter, heq]
    exact ⟨he, rfl⟩

theorem enter_meets {marker : Bool} {p : ProgramRef} {count : Nat} (hp : I.program p)
    (hc : I.control [] marker a) (hfew : I.counted → count < 2147483648) :
    I.Meets (I.At a count known) (Execution.transition (Context.enter count p))
      fun _ => I.Ready false := by
  apply transition_meets
  intro w c h
  have henter := (h.ready hc).enter hp h.operands hfew
  cases heq : Context.enter count p c with
  | ok _ c' =>
    rw [heq] at henter
    exact henter
  | error e c' =>
    rw [heq] at henter
    exact fault_of_ordinary henter.1

/-! ## Symbols -/

theorem symbol_mem {t : SymbolTable} {id : SymbolId} {symbol : Symbol}
    (h : t.get? id = some symbol) : symbol ∈ t.symbols :=
  Array.mem_of_getElem? h

/-- Looking at a symbol changes nothing. -/
theorem symbol_eq_self {id : SymbolId} {symbol : Symbol} {s t : State}
    (h : Execution.symbol id s = .ok symbol t) : t = s := by
  unfold Execution.symbol at h
  split at h
  · cases h
    rfl
  · cases h

theorem symbol_meets (id : SymbolId) :
    I.Meets (I.At a k known) (Execution.symbol id)
      fun symbol s => (I.Value symbol.value ∧
        (symbol.kind = .function → ∀ p, symbol.value = .program p → I.program p)) ∧
        s.world.symbols.get? id = some symbol ∧ I.At a k known s := by
  rintro ⟨w, c⟩ h
  simp only [Execution.symbol]
  cases hget : w.symbols.get? id with
  | none =>
    refine ⟨h.sound.world, fun f hf => ?_⟩
    cases hf
    exact fault_of_ordinary ⟨not_false, not_false⟩
  | some symbol =>
    have hmem := symbol_mem hget
    exact ⟨⟨h.sound.world.symbols _ hmem, h.sound.world.functions _ hmem⟩, hget, h⟩

theorem mem_modify {α : Type} {xs : Array α} {i : Nat} {f : α → α} {x : α}
    (h : x ∈ xs.modify i f) : x ∈ xs ∨ ∃ y, xs[i]? = some y ∧ x = f y := by
  obtain ⟨j, hj⟩ := Array.mem_iff_getElem?.1 h
  rw [Array.getElem?_modify] at hj
  split at hj
  · next hij =>
    subst hij
    obtain ⟨y, hy, hx⟩ := Option.map_eq_some_iff.1 hj
    exact .inr ⟨y, hy, hx.symm⟩
  · exact .inl (Array.mem_of_getElem? hj)

theorem mem_setValue {t : SymbolTable} {id : SymbolId} {v : MacroMachine.Value} {symbol : Symbol}
    (h : symbol ∈ (t.setValue id v).symbols) :
    symbol ∈ t.symbols ∨ ∃ old, t.get? id = some old ∧ symbol = { old with value := v } :=
  mem_modify h

/-- A value is stored in a symbol that is no function. -/
theorem World.setValue {id : SymbolId} {v : MacroMachine.Value} (hw : I.World w) (hv : I.Value v)
    (hkind : ∀ symbol, w.symbols.get? id = some symbol → symbol.kind ≠ .function) :
    I.World { w with symbols := w.symbols.setValue id v } := by
  refine ⟨?_, ?_, hw.containers⟩
  · intro symbol hsymbol
    rcases mem_setValue hsymbol with hsymbol | ⟨old, -, rfl⟩
    · exact hw.symbols symbol hsymbol
    · exact hv
  · intro symbol hsymbol hfunction
    rcases mem_setValue hsymbol with hsymbol | ⟨old, hold, rfl⟩
    · exact hw.functions symbol hsymbol hfunction
    · exact absurd hfunction (hkind old hold)

theorem setValue_kind {t : SymbolTable} {id other : SymbolId} {v : MacroMachine.Value}
    {symbol : Symbol} (h : (t.setValue id v).get? other = some symbol) :
    ∃ old, t.get? other = some old ∧ old.kind = symbol.kind := by
  by_cases hid : other = id
  · subst hid
    rw [SymbolTable.setValue, SymbolTable.get?_modify] at h
    obtain ⟨old, hold, rfl⟩ := Option.map_eq_some_iff.1 h
    exact ⟨old, hold, rfl⟩
  · rw [SymbolTable.setValue, SymbolTable.get?_modify_of_ne _ _ hid] at h
    exact ⟨symbol, h, rfl⟩

/-! ## Places -/

theorem frameOffset_fault {symbol : Symbol} {e : MacroMachine.Fault}
    (h : symbol.frameOffset = .error e) : e.Ordinary := by
  unfold Symbol.frameOffset at h
  split at h
  · split at h
    · cases h; exact ⟨not_false, not_false⟩
    · cases h
  · cases h; exact ⟨not_false, not_false⟩

/-- The symbol that a place is known by. -/
def placeSymbol : Place → Option SymbolId
  | .frame _ => none
  | .global id => some id

theorem place?_meets (id : SymbolId) :
    I.Meets (I.At a k none) (Execution.place? id) fun place s =>
      match place with
      | some place => I.At a k (placeSymbol place) s
      | none => I.At a k none s := by
  unfold Execution.place?
  refine .bind (symbol_meets id) fun symbol => .given fun _ => ?_
  split
  · refine .bind (.before (ofExcept_meets ?_) fun _ hs => hs.2) fun offset => ?_
    · intro e he
      exact fault_of_ordinary (frameOffset_fault he)
    · exact .pure fun s hs => hs
  · next hkind =>
    refine .pure fun s hs => ⟨hs.2.sound, hs.2.pc, hs.2.operands, ?_⟩
    intro other hother symbol' hsymbol'
    cases hother
    rw [hs.1] at hsymbol'
    cases hsymbol'
    rw [hkind]
    simp
  · exact .pure fun s hs => hs.2

theorem write_meets (place : Place) {v : MacroMachine.Value} (hv : I.Value v) :
    I.Meets (I.At a k (placeSymbol place)) (Execution.write place v)
      fun _ => I.At a k (placeSymbol place) := by
  cases place with
  | frame offset => exact setLocal_meets offset hv
  | global id =>
    refine .bind (symbol_meets id) fun symbol => .given fun _ => .before ?_ fun _ hs => hs.2
    rintro ⟨w, c⟩ h
    refine h.withWorld ?_ ?_
    · exact World.setValue h.sound.world hv (h.assignable id rfl)
    · intro other symbol hsymbol hfunction
      obtain ⟨old, hold, hkind⟩ := setValue_kind hsymbol
      exact ⟨old, hold, hkind.trans hfunction⟩

theorem read_meets (place : Place) :
    I.Meets (I.At a k known) (Execution.read place)
      fun v s => I.Value v ∧ I.At a k known s := by
  cases place with
  | frame offset => exact localValue_meets offset
  | global id =>
    refine .bind (symbol_meets id) fun symbol => .given fun hsymbol => ?_
    exact .pure fun s hs => ⟨hsymbol.1, hs.2⟩

/-! ## Arrays -/

/-- The entries of an array satisfy what the world holds. -/
theorem entries_all (hw : I.World w) (ref : ArrayRef) : (w.store.entries ref).All I.Value := by
  unfold Store.entries
  cases hget : w.store.containers[ref.index]? with
  | none => exact Entries.all_empty
  | some e => exact hw.containers e (Array.mem_of_getElem? hget)

/-- A change of the store that puts in nothing but values that may be about. -/
theorem At.withStore {store : Store} (h : I.At a k known ⟨w, c⟩)
    (hstore : ∀ e ∈ store.containers, e.All I.Value) : I.At a k known ⟨{ w with store }, c⟩ :=
  h.withWorld ⟨h.sound.world.symbols, h.sound.world.functions, hstore⟩
    fun _ symbol hsymbol hfunction => ⟨symbol, hsymbol, hfunction⟩

theorem alloc_all {store : Store} {e : Entries MacroMachine.Value}
    (hstore : ∀ e ∈ store.containers, e.All I.Value) (he : e.All I.Value) :
    ∀ e' ∈ (store.alloc e).2.containers, e'.All I.Value := by
  intro e' he'
  rcases Array.mem_push.1 he' with he' | rfl
  · exact hstore e' he'
  · exact he

theorem modify_all {store : Store} {ref : ArrayRef}
    {f : Entries MacroMachine.Value → Entries MacroMachine.Value}
    (hstore : ∀ e ∈ store.containers, e.All I.Value)
    (hf : ∀ e : Entries MacroMachine.Value, e.All I.Value → (f e).All I.Value) :
    ∀ e ∈ (store.modify ref f).containers, e.All I.Value := by
  intro e he
  rcases mem_modify he with he | ⟨old, hold, rfl⟩
  · exact hstore e he
  · exact hf old (hstore old (Array.mem_of_getElem? hold))

theorem modifyStore_meets {f : Store → Store}
    (hf : ∀ store : Store, (∀ e ∈ store.containers, e.All I.Value) →
      ∀ e ∈ (f store).containers, e.All I.Value) :
    I.Meets (I.At a k known) (Execution.modifyStore f) fun _ => I.At a k known := by
  rintro ⟨w, c⟩ h
  exact h.withStore (hf w.store h.sound.world.containers)

theorem withStore_meets {α : Type} {f : Store → α × Store} {fact : α → Prop}
    (hf : ∀ w : MacroMachine.World, I.World w → fact (f w.store).1 ∧
      ∀ e ∈ (f w.store).2.containers, e.All I.Value) :
    I.Meets (I.At a k known) (Execution.withStore f) fun x s => fact x ∧ I.At a k known s := by
  rintro ⟨w, c⟩ h
  have hstore := hf w h.sound.world
  exact ⟨hstore.1, h.withStore hstore.2⟩

theorem alloc_meets {e : Entries MacroMachine.Value} (he : e.All I.Value) :
    I.Meets (I.At a k known) (Execution.withStore (·.alloc e)) fun _ => I.At a k known := by
  have h : I.Meets (I.At a k known) (Execution.withStore (·.alloc e))
      fun _ s => True ∧ I.At a k known s :=
    withStore_meets fun w hw => ⟨trivial, alloc_all hw.containers he⟩
  exact h.after fun _ _ hs => hs.2

/-- An assignment stores the value itself or a copy of an array. -/
theorem copyForAssignment_meets {v : MacroMachine.Value} (hv : I.Value v) :
    I.Meets (I.At a k known) (Execution.withStore (·.copyForAssignment v))
      fun copied s => I.Value copied ∧ I.At a k known s := by
  apply withStore_meets
  intro w hw
  unfold Store.copyForAssignment
  split
  · next ref =>
    exact ⟨value_of_kind (by simp [MacroMachine.Value.kind]),
      alloc_all hw.containers (entries_all hw ref)⟩
  · exact ⟨hv, hw.containers⟩

/-- The set operators make a new array from entries of the old ones. -/
def SetOperator (setOperator : Store → ArrayRef → ArrayRef → ArrayRef × Store) : Prop :=
  ∀ (I : Discipline) (w : MacroMachine.World) (left right : ArrayRef), I.World w →
    ∀ e ∈ (setOperator w.store left right).2.containers, e.All I.Value

theorem setOperator_union : SetOperator Store.union := by
  intro I w left right hw
  refine alloc_all hw.containers (.mergeWith ?_ (entries_all hw left) (entries_all hw right))
  rintro (u | v | ⟨u, v⟩) x hside hx
  · cases hx; exact hside
  · cases hx; exact hside
  · cases hx; exact hside.2

theorem setOperator_difference : SetOperator Store.difference := by
  intro I w left right hw
  refine alloc_all hw.containers (.mergeWith ?_ (entries_all hw left) (entries_all hw right))
  rintro (u | v | ⟨u, v⟩) x hside hx
  · cases hx; exact hside
  · cases hx
  · cases hx

theorem setOperator_intersection : SetOperator Store.intersection := by
  intro I w left right hw
  refine alloc_all hw.containers (.mergeWith ?_ (entries_all hw left) (entries_all hw right))
  rintro (u | v | ⟨u, v⟩) x hside hx
  · cases hx
  · cases hx
  · cases hx; exact hside.2

end Discipline

end MacroMachine
