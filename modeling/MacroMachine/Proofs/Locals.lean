import MacroMachine.Proofs.Effects

/-!
# Local variables of live frames

The local variables of a macro are slots of its stack, scattered over the frames of all calls that
have not returned.  This module finds them by going from callee to caller, and follows them through
every instruction that is *confined*: it runs no routine, takes its operands from above the local
variables of its frame, and names only local variables of its own program.

*Layout.*  What makes this work is that the frames lie one above the other: the arguments of a frame
begin above the local variables of its caller.  The saved number of arguments is a 32-bit number and
may have wrapped around, but then it is too small and the return leaves more of the stack.
-/

namespace MacroMachine

/-! ## Frames and their local variables -/

/-- From the frame at `fp` of the program `p` one comes to the frame at `g` of the program `q` by
going to the caller some number of times. -/
inductive LiveFrom (stack : Array Value) : Nat → ProgramRef → Nat → ProgramRef → Prop where
  | here {fp : Nat} {p : ProgramRef} : LiveFrom stack fp p fp p
  | caller {fp fp' g : Nat} {p q : ProgramRef} {a : CodeAddress} :
      stack[fp - 4]? = some (.address (some a)) → stack[fp - 3]? = some (.frame (some fp')) →
      LiveFrom stack fp' a.program g q → LiveFrom stack fp p g q

/-- The number of local variables of the running program. -/
def Context.localCount (c : Context) : Nat :=
  c.pc.program.program.locals.length

/-- The frame at `g` of the program `q` has not returned. -/
def Context.Live (c : Context) (g : Nat) (q : ProgramRef) : Prop :=
  LiveFrom c.stack c.fp c.pc.program g q

/-- The slot is a local variable of a live frame. -/
def Context.IsLocal (c : Context) (position : Nat) : Prop :=
  ∃ g q, LiveFrom c.stack c.fp c.pc.program g q ∧ g ≤ position ∧
    position < g + q.program.locals.length

/-- Each frame, from the one at a frame pointer down, lies above the local variables of its caller.
-/
inductive Laid (stack : Array Value) : Nat → Prop where
  | outermost {fp : Nat} : 4 ≤ fp → stack[fp - 4]? = some (.address none) →
      stack[fp - 3]? = some (.frame none) → Laid stack fp
  | inner {fp fp' : Nat} {a : CodeAddress} {m : Int32} :
      stack[fp - 4]? = some (.address (some a)) → stack[fp - 3]? = some (.frame (some fp')) →
      stack[fp - 2]? = some (.int m) →
      fp' + a.program.program.locals.length + (4 + m.toInt.toNat) ≤ fp → Laid stack fp' →
      Laid stack fp

/-- The frames lie one above the other, and the stack holds the current one. -/
structure Context.WellLaid (c : Context) : Prop where
  laid : Laid c.stack c.fp
  room : c.fp + c.localCount ≤ c.stack.size

/-- The next instruction finds its operands above the local variables of its frame. -/
def Context.OperandsAbove (c : Context) : Prop :=
  c.fp + c.localCount + c.demand ≤ c.stack.size

instance (c : Context) : Decidable c.OperandsAbove :=
  inferInstanceAs (Decidable (_ ≤ _))

/-- The next instruction runs no routine, finds its operands above the local variables of its frame,
and names only local variables of its own program. -/
structure State.Confined (s : State) : Prop where
  quiet : ¬ s.Invokes
  operands : s.context.fp + s.context.localCount + s.context.demand ≤ s.context.stack.size
  locals : ∀ offset, s.Names (.frame offset) → offset < s.context.localCount

variable {stack stack' : Array Value} {fp g : Nat} {p q : ProgramRef} {c c' : Context}

namespace Laid

theorem four_le (h : Laid stack fp) : 4 ≤ fp := by
  cases h with
  | outermost hfp _ _ => exact hfp
  | inner _ _ _ hfp _ => omega

/-- The layout of frames depends on nothing above the slot that keeps the arguments as an array. -/
theorem agree (h : Laid stack fp) (hsame : ∀ i, i + 1 < fp → stack'[i]? = stack[i]?) :
    Laid stack' fp := by
  induction h with
  | outermost hfp haddress hframe =>
    refine .outermost hfp ?_ ?_
    · rw [hsame _ (by omega), haddress]
    · rw [hsame _ (by omega), hframe]
  | inner haddress hframe hcount hfp _ ih =>
    refine .inner ?_ ?_ ?_ hfp (ih fun i hi => hsame i (by omega))
    · rw [hsame _ (by omega), haddress]
    · rw [hsame _ (by omega), hframe]
    · rw [hsame _ (by omega), hcount]

end Laid

namespace LiveFrom

/-- The caller of a frame, and the callers beyond it. -/
theorem inner {fp' : Nat} {a : CodeAddress} (h : LiveFrom stack fp p g q)
    (haddress : stack[fp - 4]? = some (.address (some a)))
    (hframe : stack[fp - 3]? = some (.frame (some fp'))) :
    g = fp ∧ q = p ∨ LiveFrom stack fp' a.program g q := by
  cases h with
  | here => exact .inl ⟨rfl, rfl⟩
  | caller haddress' hframe' h =>
    cases haddress.symm.trans haddress'
    cases hframe.symm.trans hframe'
    exact .inr h

/-- The local variables of all frames but the current one lie below its bookkeeping. -/
theorem apart (h : LiveFrom stack fp p g q) (hlaid : Laid stack fp) :
    g = fp ∧ q = p ∨ g + q.program.locals.length + 4 ≤ fp := by
  induction h with
  | here => exact .inl ⟨rfl, rfl⟩
  | caller haddress hframe _ ih =>
    cases hlaid with
    | outermost _ hnone _ => cases haddress.symm.trans hnone
    | inner haddress' hframe' _ hfp hlaid =>
      cases haddress.symm.trans haddress'
      cases hframe.symm.trans hframe'
      rcases ih hlaid with ⟨rfl, rfl⟩ | hle
      · exact .inr (by omega)
      · exact .inr (by omega)

theorem agree (h : LiveFrom stack fp p g q) (hlaid : Laid stack fp)
    (hsame : ∀ i, i + 1 < fp → stack'[i]? = stack[i]?) : LiveFrom stack' fp p g q := by
  induction h with
  | here => exact .here
  | caller haddress hframe _ ih =>
    cases hlaid with
    | outermost _ hnone _ => cases haddress.symm.trans hnone
    | inner haddress' hframe' _ hfp hlaid =>
      cases haddress.symm.trans haddress'
      cases hframe.symm.trans hframe'
      refine .caller ?_ ?_ (ih hlaid fun i hi => hsame i (by omega))
      · rw [hsame _ (by omega), haddress]
      · rw [hsame _ (by omega), hframe]

end LiveFrom

/-! ## Changes of the current frame -/

/-- The context is still in its frame, and the frames that wait below are as they were. -/
structure Context.SameFrames (c c' : Context) : Prop where
  fp : c'.fp = c.fp
  program : c'.pc.program = c.pc.program
  room : c.fp + c.localCount ≤ c'.stack.size
  below : ∀ i, i + 1 < c.fp → c'.stack[i]? = c.stack[i]?

namespace Context.SameFrames

theorem localCount (h : c.SameFrames c') : c'.localCount = c.localCount := by
  rw [Context.localCount, h.program, Context.localCount]

theorem wellLaid (h : c.SameFrames c') (hc : c.WellLaid) : c'.WellLaid where
  laid := by
    rw [h.fp]
    exact hc.laid.agree h.below
  room := by
    rw [h.fp, h.localCount]
    exact h.room

/-- The live frames are the same. -/
theorem live (h : c.SameFrames c') (hc : c.WellLaid) : c'.Live g q ↔ c.Live g q := by
  have hlaid' : Laid c'.stack c.fp := hc.laid.agree h.below
  rw [Context.Live, Context.Live, h.fp, h.program]
  constructor
  · exact fun hlive => hlive.agree hlaid' fun i hi => (h.below i hi).symm
  · exact fun hlive => hlive.agree hc.laid h.below

theorem trans {c'' : Context} (h : c.SameFrames c') (h' : c'.SameFrames c'') :
    c.SameFrames c'' where
  fp := h'.fp.trans h.fp
  program := h'.program.trans h.program
  room := by
    rw [← h.fp, ← h.localCount]
    exact h'.room
  below i hi := by
    rw [← h.fp] at hi
    exact (h'.below i hi).trans (h.below i (h.fp ▸ hi))

end Context.SameFrames

/-- The context is still in its frame, and of the slots up to the last local variable only the one
that keeps the arguments and the one that was written, a slot of the frame, may have changed. -/
structure Context.Keeps (c : Context) (written : Option Nat) (c' : Context) : Prop where
  fp : c'.fp = c.fp
  program : c'.pc.program = c.pc.program
  room : c.fp + c.localCount ≤ c'.stack.size
  above : ∀ i, written = some i → c.fp ≤ i
  same : ∀ i < c.fp + c.localCount, i + 1 ≠ c.fp → written ≠ some i → c'.stack[i]? = c.stack[i]?

namespace Context.Keeps

variable {written : Option Nat}

theorem below (h : c.Keeps written c') {i : Nat} (hi : i + 1 < c.fp) :
    c'.stack[i]? = c.stack[i]? := by
  refine h.same i (by omega) (by omega) fun hwritten => ?_
  have := h.above i hwritten
  omega

theorem sameFrames (h : c.Keeps written c') : c.SameFrames c' :=
  ⟨h.fp, h.program, h.room, fun _ hi => h.below hi⟩

theorem wellLaid (h : c.Keeps written c') (hc : c.WellLaid) : c'.WellLaid :=
  h.sameFrames.wellLaid hc

theorem isLocal (h : c.Keeps written c') (hc : c.WellLaid) {position : Nat} :
    c'.IsLocal position ↔ c.IsLocal position :=
  exists_congr fun _ => exists_congr fun _ => and_congr_left fun _ => h.sameFrames.live hc

/-- A local variable that was not written is as it was. -/
theorem value (h : c.Keeps written c') (hc : c.WellLaid) {position : Nat}
    (hlocal : c.IsLocal position) (hwritten : written ≠ some position) :
    c'.stack[position]? = c.stack[position]? := by
  obtain ⟨g, q, hlive, hle, hlt⟩ := hlocal
  rcases hlive.apart hc.laid with ⟨rfl, rfl⟩ | hbelow
  · exact h.same position hlt (by omega) hwritten
  · exact h.below (by omega)

end Context.Keeps

namespace Context.WellLaid

theorem keeps (h : c.WellLaid) : c.Keeps none c :=
  ⟨rfl, rfl, h.room, nofun, fun _ _ _ _ => rfl⟩

theorem jump (h : c.WellLaid) (target : Nat) :
    c.Keeps none { c with pc := c.pc.jump target } :=
  ⟨rfl, rfl, h.room, nofun, fun _ _ _ _ => rfl⟩

theorem push (h : c.WellLaid) (v : Value) :
    c.Keeps none { c with stack := c.stack.push v } where
  fp := rfl
  program := rfl
  room := by
    rw [Array.size_push]
    exact Nat.le_succ_of_le h.room
  above := nofun
  same i hi _ _ := by
    have hroom := h.room
    rw [Array.getElem?_push, if_neg (by omega)]

theorem cache (h : c.WellLaid) (v : Value) :
    c.Keeps none { c with stack := c.stack.setIfInBounds (c.fp - 1) v } where
  fp := rfl
  program := rfl
  room := by
    rw [Array.size_setIfInBounds]
    exact h.room
  above := nofun
  same i _ hne _ := by
    have hfp := h.laid.four_le
    exact Array.getElem?_setIfInBounds_ne (by omega)

theorem write (h : c.WellLaid) (offset : Nat) (v : Value) :
    c.Keeps (some (c.fp + offset)) { c with stack := c.stack.setIfInBounds (c.fp + offset) v } where
  fp := rfl
  program := rfl
  room := by
    rw [Array.size_setIfInBounds]
    exact h.room
  above i hi := by
    cases hi
    exact Nat.le_add_right _ _
  same i _ _ hne := Array.getElem?_setIfInBounds_ne fun heq => hne (congrArg some heq)

end Context.WellLaid

section Instructions

variable {s₀ s t : State} {a : CodeAddress} {n : Nat}

theorem Popped.keeps (h : Popped s₀ a n s) (habove : s₀.context.OperandsAbove) :
    s₀.context.Keeps none s.context where
  fp := by rw [h.context]
  program := by rw [h.context]; exact h.program
  room := by
    have hfew := h.few
    unfold Context.OperandsAbove at habove
    rw [h.size]
    omega
  above := nofun
  same i hi _ _ := by
    have hfew := h.few
    unfold Context.OperandsAbove at habove
    rw [h.stack]
    exact extract_below (by omega)

/-- Within an instruction the frame stays where it is. -/
theorem During.keeps (h : During s₀ s) (habove : s₀.context.OperandsAbove)
    (hlaid : s₀.context.WellLaid) :
    s.context.fp = s₀.context.fp ∧ s.context.pc.program = s₀.context.pc.program ∧
      s.context.WellLaid := by
  have hkeeps : ∀ {c c' : Context} {written : Option Nat}, c.Keeps written c' →
      c.fp = s₀.context.fp ∧ c.pc.program = s₀.context.pc.program ∧ c.WellLaid →
      c'.fp = s₀.context.fp ∧ c'.pc.program = s₀.context.pc.program ∧ c'.WellLaid :=
    fun h ⟨hfp, hprogram, hc⟩ => ⟨h.fp.trans hfp, h.program.trans hprogram, h.wellLaid hc⟩
  induction h with
  | popped hs => exact hkeeps (hs.keeps habove) ⟨rfl, rfl, hlaid⟩
  | jump target _ ih => exact hkeeps (ih.2.2.jump target) ih
  | push v _ _ ih => exact hkeeps (ih.2.2.push v) ih
  | make e _ ih => exact ih
  | @store s place v _ _ _ ih =>
    cases place with
    | frame offset => exact hkeeps (ih.2.2.write offset v) ih
    | global id => exact ih
  | @storeNew s place e _ _ ih =>
    cases place with
    | frame offset => exact hkeeps (ih.2.2.write offset _) ih
    | global id => exact ih
  | cache e _ _ ih => exact hkeeps (ih.2.2.cache _) ih
  | alter _ _ ih => exact ih

end Instructions

/-! ## New frames -/

/-- The local variables of a new frame. -/
theorem withFrame_local (returnTo : Option CodeAddress) (caller : Option Nat) (count locals : Nat)
    {i : Nat} (hle : stack.size + 4 ≤ i) (hlt : i < stack.size + 4 + locals) :
    (withFrame stack returnTo caller count locals)[i]? = some .unset := by
  rw [withFrame, Array.getElem?_append_right (by simp; omega), Array.getElem?_replicate, if_pos]
  simp
  omega

/-- A call makes a frame above the local variables of its caller. -/
theorem Context.WellLaid.enter (h : c.WellLaid) {count : Nat} (p : ProgramRef)
    (hroom : c.fp + c.localCount + count ≤ c.stack.size) (hc' : c' = { c with
      stack := withFrame c.stack (some c.pc) (some c.fp) count p.program.locals.length
      fp := c.stack.size + 4
      pc := ⟨p, 0⟩ }) :
    c'.WellLaid ∧ ∀ g q, c'.Live g q → g = c.stack.size + 4 ∧ q = p ∨ c.Live g q := by
  subst hc'
  have haddress := withFrame_slot c.stack (some c.pc) (some c.fp) count
    p.program.locals.length (i := 0) (by decide)
  have hframe := withFrame_slot c.stack (some c.pc) (some c.fp) count
    p.program.locals.length (i := 1) (by decide)
  have hcount := withFrame_slot c.stack (some c.pc) (some c.fp) count
    p.program.locals.length (i := 2) (by decide)
  have hfp := h.laid.four_le
  have hroom' := h.room
  have hsame : ∀ i, i + 1 < c.fp →
      (withFrame c.stack (some c.pc) (some c.fp) count p.program.locals.length)[i]? =
        c.stack[i]? := fun i hi => withFrame_below _ _ _ _ (by omega)
  constructor
  · constructor
    · refine .inner haddress hframe hcount ?_ (h.laid.agree hsame)
      have := toNat_ofNat_le count
      show c.fp + c.localCount + (4 + _) ≤ c.stack.size + 4
      omega
    · exact Nat.le_of_eq (size_withFrame _ _ _ _).symm
  · intro g q hlive
    rcases hlive.inner haddress hframe with ⟨rfl, rfl⟩ | hlive
    · exact .inl ⟨rfl, rfl⟩
    · exact .inr (hlive.agree (h.laid.agree hsame) fun i hi => (hsame i hi).symm)

/-- The local variables of a live frame lie on the stack. -/
theorem Context.WellLaid.le_size (h : c.WellLaid) (hlive : c.Live g q) :
    g + q.program.locals.length ≤ c.stack.size := by
  rcases hlive.apart h.laid with ⟨rfl, rfl⟩ | hapart
  · exact h.room
  · have hroom := h.room
    omega

/-- The local variables of the new frame have no values yet, and the others are as they were. -/
theorem Context.WellLaid.call (h : c.WellLaid) {count : Nat} (p : ProgramRef)
    (hroom : c.fp + c.localCount + count ≤ c.stack.size) (hc' : c' = { c with
      stack := withFrame c.stack (some c.pc) (some c.fp) count p.program.locals.length
      fp := c.stack.size + 4
      pc := ⟨p, 0⟩ }) :
    c'.WellLaid ∧ ∀ position, c'.IsLocal position →
      c'.stack[position]? = some .unset ∨
        c.IsLocal position ∧ c'.stack[position]? = c.stack[position]? := by
  obtain ⟨hlaid, hframes⟩ := h.enter p hroom hc'
  refine ⟨hlaid, ?_⟩
  rintro position ⟨g, q, hlive, hle, hlt⟩
  subst hc'
  rcases hframes g q hlive with ⟨rfl, rfl⟩ | hlive
  · exact .inl (withFrame_local _ _ _ _ hle hlt)
  · have hsize := h.le_size hlive
    exact .inr ⟨⟨g, q, hlive, hle, hlt⟩, withFrame_below _ _ _ _ (by omega)⟩

/-- A macro starts with local variables that have no values yet. -/
theorem Context.wellLaid_start {arguments : List Value} {limit : Nat}
    {target : Option DocumentHandle} (h : Context.start p arguments limit target = .ok c) :
    c.WellLaid ∧ ∀ position, c.IsLocal position → c.stack[position]? = some .unset := by
  obtain ⟨-, rfl⟩ := Context.start_eq_ok h
  have haddress := withFrame_slot arguments.toArray none none arguments.length
    p.program.locals.length (i := 0) (by decide)
  have hframe := withFrame_slot arguments.toArray none none arguments.length
    p.program.locals.length (i := 1) (by decide)
  refine ⟨⟨.outermost (Nat.le_add_left 4 _) haddress hframe, ?_⟩, ?_⟩
  · exact Nat.le_of_eq (size_withFrame _ _ _ _).symm
  · rintro position ⟨g, q, hlive, hle, hlt⟩
    cases hlive with
    | here => exact withFrame_local _ _ _ _ hle hlt
    | caller haddress' _ _ => cases haddress.symm.trans haddress'

/-- A return leads back to the frame of the caller.  The frames that are left lie below the one that
has returned, and are as they were. -/
theorem Returned.frames {s₀ t : State} (h : Returned s₀ t) (habove : s₀.context.OperandsAbove)
    (hlaid : s₀.context.WellLaid) :
    t.context.WellLaid ∧ ∀ g q, t.context.Live g q →
      s₀.context.Live g q ∧ g + q.program.locals.length + 4 ≤ s₀.context.fp ∧
        ∀ i < g + q.program.locals.length,
          t.context.stack[i]? = s₀.context.stack[i]? := by
  obtain @⟨_, b, s, _, _, m, hs, haddress, hframe, hcount, -, hfp, hprogram, hsame, hsize⟩ := h
  have hkeeps := hs.keeps habove
  have hlaid' := (hkeeps.wellLaid hlaid).laid
  have hcurrent := hkeeps.fp
  cases hlaid' with
  | outermost _ hnone _ => cases haddress.symm.trans hnone
  | @inner _ fp' _ _ haddress' hframe' hcount' hbase hcaller =>
    cases haddress.symm.trans haddress'
    cases hframe.symm.trans hframe'
    cases hcount.symm.trans hcount'
    have hfp : t.context.fp = fp' := hfp
    have hbelow : ∀ i, i < fp' + b.program.program.locals.length →
        t.context.stack[i]? = s.context.stack[i]? := fun i hi => hsame i (by omega)
    have hcaller' : Laid t.context.stack fp' := hcaller.agree fun i hi => hbelow i (by omega)
    refine ⟨⟨hfp ▸ hcaller', ?_⟩, ?_⟩
    · rw [Context.localCount, hfp, hprogram]
      omega
    · intro g q hlive
      rw [Context.Live, hfp, hprogram] at hlive
      have hend : g + q.program.locals.length ≤ fp' + b.program.program.locals.length := by
        rcases hlive.apart hcaller' with ⟨rfl, rfl⟩ | hapart
        · exact Nat.le_refl _
        · omega
      have hlive' := hlive.agree hcaller' fun i hi => (hbelow i (by omega)).symm
      have hlive := (hkeeps.sameFrames.live hlaid).1 (.caller haddress hframe hlive')
      refine ⟨hlive, by omega, fun i hi => ?_⟩
      rw [hbelow i (by omega)]
      exact hkeeps.below (by omega)

/-- The local variables that are left are as they were. -/
theorem Returned.wellLaid {s₀ t : State} (h : Returned s₀ t) (habove : s₀.context.OperandsAbove)
    (hlaid : s₀.context.WellLaid) :
    t.context.WellLaid ∧ ∀ position, t.context.IsLocal position →
      s₀.context.IsLocal position ∧
        t.context.stack[position]? = s₀.context.stack[position]? := by
  obtain ⟨hlaid', hframes⟩ := h.frames habove hlaid
  refine ⟨hlaid', ?_⟩
  rintro position ⟨g, q, hlive, hle, hlt⟩
  obtain ⟨hlive', -, hsame⟩ := hframes g q hlive
  exact ⟨⟨g, q, hlive', hle, hlt⟩, hsame position hlt⟩

end MacroMachine
