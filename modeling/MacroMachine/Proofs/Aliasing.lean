import MacroMachine.Proofs.Locals

/-!
# Variables never share a container

An array that is assigned is copied, so that two variables never hold the same container.  Arrays
travel in many other ways: on the stack, as arguments, as the array of all arguments, inside other
arrays, as the target of an iterator.  This module shows that none of these ways ends in a variable:
whatever macros run in whatever order, suspended and continued, every container that a variable
holds was made for that variable.

*Sessions.*  A session is a world with any number of macros in execution.  They take turns after
any instruction, so that the slices of macros are among the runs of a session (`Reaches.slice`).

*Holdings.*  A variable is a global symbol or a local variable of a live frame.  The proof follows
which variables hold which containers (`Session.Holds`) through the single changes that an
instruction is made of.  A change either adds no holding, or it adds one of a container that it has
just made.
-/

namespace MacroMachine

/-! ## Sessions and variables -/

/-- The world and the macros in execution, by numbers. -/
structure Session where
  world : World
  contexts : Nat → Option Context

/-- A variable: a global symbol, or a slot of the stack of a macro. -/
inductive Variable where
  | global (id : SymbolId)
  | slot (owner position : Nat)
deriving DecidableEq

/-- A global symbol holds a container. -/
def World.GlobalHolds (w : World) (id : SymbolId) (ref : ArrayRef) : Prop :=
  ∃ symbol, w.symbols.get? id = some symbol ∧ symbol.kind = .global ∧ symbol.value = .array ref

/-- The variable that lives at a place, for a macro whose current frame begins at `fp`. -/
def Place.variable (i fp : Nat) : Place → Variable
  | .frame offset => .slot i (fp + offset)
  | .global id => .global id

/-- The context of a macro that can be continued. -/
def Status.context? : Status → Option Context
  | .preempted c _ => some c
  | _ => none

namespace Session

/-- A variable holds a container.  The slots that are variables are the local variables of live
frames. -/
inductive Holds (σ : Session) : Variable → ArrayRef → Prop where
  | global {id : SymbolId} {ref : ArrayRef} : σ.world.GlobalHolds id ref → Holds σ (.global id) ref
  | slot {i position : Nat} {c : Context} {ref : ArrayRef} : σ.contexts i = some c →
      c.IsLocal position → c.stack[position]? = some (.array ref) → Holds σ (.slot i position) ref

/-- A session in which no macro is in execution. -/
def idle (w : World) : Session :=
  ⟨w, fun _ => none⟩

/-- The session with another world, and with another context of one macro or none. -/
def set (σ : Session) (i : Nat) (w : World) (c : Option Context) : Session :=
  ⟨w, fun j => if j = i then c else σ.contexts j⟩

/-- The session in which one macro is in a state. -/
def within (σ : Session) (i : Nat) (s : State) : Session :=
  σ.set i s.world (some s.context)

/-- One move of a session: a macro starts, executes an instruction, and then is over, fails or goes
on; or it is given up. -/
inductive Moves (host : Host) (σ : Session) : Session → Prop where
  | start {i : Nat} {p : ProgramRef} {arguments : List Value} {target : Option DocumentHandle}
      {c : Context} : σ.contexts i = none →
      Context.start p arguments host.limits.stackSize target = .ok c →
      Moves host σ (σ.set i σ.world (some c))
  | step {i : Nat} {c : Context} {outcome : Outcome} {t : State} : σ.contexts i = some c →
      State.Confined ⟨σ.world, c⟩ → host.Steps ⟨σ.world, c⟩ outcome t → outcome ≠ .done →
      Moves host σ (σ.within i t)
  | done {i : Nat} {c : Context} {t : State} : σ.contexts i = some c →
      State.Confined ⟨σ.world, c⟩ → host.Steps ⟨σ.world, c⟩ .done t →
      Moves host σ (σ.set i t.world none)
  | fail {i fuel : Nat} {c : Context} {halt : Halt} {t : State} : σ.contexts i = some c →
      State.Confined ⟨σ.world, c⟩ →
      Execution.step host (host.resume fuel) ⟨σ.world, c⟩ = .error halt t →
      Moves host σ (σ.set i t.world none)
  | drop (i : Nat) : Moves host σ (σ.set i σ.world none)

/-- What a session comes to by any number of moves. -/
inductive Reaches (host : Host) (σ : Session) : Session → Prop where
  | start : Reaches host σ σ
  | move {τ υ : Session} : Reaches host σ τ → Moves host τ υ → Reaches host σ υ

variable {σ τ : Session} {i : Nat} {w : World} {c : Context} {s s' s₀ t : State} {x : Variable}
  {ref : ArrayRef} {place : Place} {v : Value}

theorem set_self : σ.set i σ.world (σ.contexts i) = σ := by
  obtain ⟨w, contexts⟩ := σ
  rw [set]
  congr 1
  funext j
  by_cases hj : j = i
  · rw [if_pos hj, hj]
  · rw [if_neg hj]

theorem within_self (h : σ.contexts i = some c) : σ.within i ⟨σ.world, c⟩ = σ := by
  rw [within, ← h, set_self]

theorem set_set {w' : World} {c? c?' : Option Context} :
    (σ.set i w c?).set i w' c?' = σ.set i w' c?' := by
  rw [set, set, set]
  congr 1
  funext j
  by_cases hj : j = i
  · rw [if_pos hj, if_pos hj]
  · rw [if_neg hj, if_neg hj]
    exact if_neg hj

/-! ## Holdings -/

/-- The holdings of a session that one macro is a part of. -/
theorem holds_set_slot {c? : Option Context} {j position : Nat} :
    (σ.set i w c?).Holds (.slot j position) ref ↔
      ∃ c, (if j = i then c? else σ.contexts j) = some c ∧ c.IsLocal position ∧
        c.stack[position]? = some (.array ref) := by
  constructor
  · rintro (_ | ⟨hc, hlocal, hvalue⟩)
    exact ⟨_, hc, hlocal, hvalue⟩
  · rintro ⟨c, hc, hlocal, hvalue⟩
    exact .slot hc hlocal hvalue

theorem holds_set_global {c? : Option Context} {id : SymbolId} :
    (σ.set i w c?).Holds (.global id) ref ↔ w.GlobalHolds id ref := by
  constructor
  · rintro (h | _)
    exact h
  · intro h
    apply Holds.global
    exact h

/-- A macro that is over holds nothing any more. -/
theorem holds_of_gone (h : (σ.set i w none).Holds x ref) (c? : Option Context) :
    (σ.set i w c?).Holds x ref := by
  cases x with
  | global id => exact holds_set_global.2 (holds_set_global.1 h)
  | slot j position =>
    obtain ⟨c, hc, hlocal, hvalue⟩ := holds_set_slot.1 h
    by_cases hj : j = i
    · rw [if_pos hj] at hc
      cases hc
    · refine holds_set_slot.2 ⟨c, ?_, hlocal, hvalue⟩
      rwa [if_neg hj] at hc ⊢

/-- The holdings of a session once one macro has gone from a state to another one. -/
theorem holds_within
    (hglobal : ∀ id, x = .global id → s'.world.GlobalHolds id ref → s.world.GlobalHolds id ref)
    (hslot : ∀ position, x = .slot i position → s'.context.IsLocal position →
      s'.context.stack[position]? = some (.array ref) →
      s.context.IsLocal position ∧ s.context.stack[position]? = some (.array ref))
    (h : (σ.within i s').Holds x ref) : (σ.within i s).Holds x ref := by
  cases x with
  | global id => exact holds_set_global.2 (hglobal id rfl (holds_set_global.1 h))
  | slot j position =>
    obtain ⟨c', hc', hlocal, hvalue⟩ := holds_set_slot.1 h
    refine holds_set_slot.2 ?_
    by_cases hj : j = i
    · subst hj
      rw [if_pos rfl] at hc'
      cases hc'
      obtain ⟨hlocal, hvalue⟩ := hslot position rfl hlocal hvalue
      exact ⟨_, if_pos rfl, hlocal, hvalue⟩
    · rw [if_neg hj] at hc'
      exact ⟨c', by rw [if_neg hj]; exact hc', hlocal, hvalue⟩

/-- A variable keeps what it holds if it is not the slot that was written. -/
theorem holds_keeps {written : Option Nat} (hs : s.context.WellLaid)
    (hkeeps : s.context.Keeps written s'.context)
    (hwritten : ∀ position, x = .slot i position → written ≠ some position)
    (hglobal : ∀ id, x = .global id → (s'.world.GlobalHolds id ref ↔ s.world.GlobalHolds id ref)) :
    (σ.within i s').Holds x ref ↔ (σ.within i s).Holds x ref := by
  constructor
  · refine holds_within (fun id hx => (hglobal id hx).1) fun position hx hlocal hvalue => ?_
    have hlocal' := (hkeeps.isLocal hs).1 hlocal
    exact ⟨hlocal', by rw [← hkeeps.value hs hlocal' (hwritten position hx)]; exact hvalue⟩
  · refine holds_within (fun id hx => (hglobal id hx).2) fun position hx hlocal hvalue => ?_
    exact ⟨(hkeeps.isLocal hs).2 hlocal,
      by rw [hkeeps.value hs hlocal (hwritten position hx)]; exact hvalue⟩

theorem holds_keeps_none (hs : s.context.WellLaid) (hkeeps : s.context.Keeps none s'.context)
    (hsymbols : s'.world.symbols = s.world.symbols) :
    (σ.within i s').Holds x ref ↔ (σ.within i s).Holds x ref :=
  holds_keeps hs hkeeps nofun fun _ _ => by rw [World.GlobalHolds, hsymbols, World.GlobalHolds]

theorem holds_make (hs : s.context.WellLaid) (e : Entries Value) :
    (σ.within i (s.make e)).Holds x ref ↔ (σ.within i s).Holds x ref :=
  holds_keeps_none hs hs.keeps rfl

theorem globalHolds_setValue_of_ne {id other : SymbolId} (h : other ≠ id) :
    World.GlobalHolds { w with symbols := w.symbols.setValue id v } other ref ↔
      w.GlobalHolds other ref := by
  simp only [World.GlobalHolds, SymbolTable.setValue, SymbolTable.get?_modify_of_ne _ _ h]

theorem value_of_globalHolds {id : SymbolId}
    (h : World.GlobalHolds { w with symbols := w.symbols.setValue id v } id ref) :
    v = .array ref := by
  obtain ⟨symbol, hsymbol, -, hvalue⟩ := h
  rw [SymbolTable.setValue, SymbolTable.get?_modify] at hsymbol
  obtain ⟨old, -, rfl⟩ := Option.map_eq_some_iff.1 hsymbol
  exact hvalue

/-- Writing a variable leaves all others alone. -/
theorem holds_put_of_ne (hs : s.context.WellLaid) (hx : x ≠ place.variable i s.context.fp) :
    (σ.within i (s.put place v)).Holds x ref ↔ (σ.within i s).Holds x ref := by
  cases place with
  | frame offset =>
    refine holds_keeps hs (hs.write offset v) (fun position heq hwritten => ?_) fun _ _ => Iff.rfl
    cases hwritten
    exact hx heq
  | global id =>
    refine holds_keeps hs hs.keeps nofun fun other heq => globalHolds_setValue_of_ne ?_
    rintro rfl
    exact hx heq

/-- What a variable holds that was just written. -/
theorem value_of_holds_put
    (h : (σ.within i (s.put place v)).Holds (place.variable i s.context.fp) ref) :
    v = .array ref := by
  cases place with
  | frame offset =>
    obtain ⟨c', hc', -, hvalue⟩ := holds_set_slot.1 h
    rw [if_pos rfl] at hc'
    cases hc'
    rw [State.put, State.withStack, Array.getElem?_setIfInBounds, if_pos rfl] at hvalue
    split at hvalue
    · exact Option.some.inj hvalue
    · cases hvalue
  | global id => exact value_of_globalHolds (holds_set_global.1 h)

theorem wellLaid_put (hs : s.context.WellLaid) : (s.put place v).context.WellLaid := by
  cases place with
  | frame offset => exact (hs.write offset v).wellLaid hs
  | global id => exact hs

theorem store_put (s : State) (place : Place) (v : Value) :
    (s.put place v).world.store = s.world.store := by
  cases place with
  | frame offset => rfl
  | global id => rfl

/-- An instruction leaves the variables alone that it does not name. -/
theorem holds_during (hlaid : s₀.context.WellLaid) (hconfined : s₀.Confined)
    (hduring : During s₀ s)
    (hx : ∀ place, s₀.Names place → x ≠ place.variable i s₀.context.fp) :
    (σ.within i s).Holds x ref ↔ (σ.within i s₀).Holds x ref := by
  induction hduring with
  | popped hs => exact holds_keeps_none hlaid (hs.keeps hconfined.operands) hs.symbols
  | jump target hs ih =>
    have hlaid := (hs.keeps hconfined.operands hlaid).2.2
    exact Iff.trans (holds_keeps_none hlaid (hlaid.jump target) rfl) ih
  | push v hs _ ih =>
    have hlaid := (hs.keeps hconfined.operands hlaid).2.2
    exact Iff.trans (holds_keeps_none hlaid (hlaid.push v) rfl) ih
  | make e hs ih => exact Iff.trans (holds_make (hs.keeps hconfined.operands hlaid).2.2 e) ih
  | store hs hplace _ ih =>
    obtain ⟨hfp, -, hlaid⟩ := hs.keeps hconfined.operands hlaid
    exact (holds_put_of_ne hlaid (hfp ▸ hx _ hplace)).trans ih
  | @storeNew s place e hs hplace ih =>
    obtain ⟨hfp, -, hlaid⟩ := hs.keeps hconfined.operands hlaid
    have hx : x ≠ place.variable i (s.make e).context.fp := hfp ▸ hx _ hplace
    exact ((holds_put_of_ne (s := s.make e) hlaid hx).trans (holds_make hlaid e)).trans ih
  | cache e hs _ ih =>
    have hlaid := (hs.keeps hconfined.operands hlaid).2.2
    exact Iff.trans (holds_keeps_none hlaid (hlaid.cache _) rfl) ih
  | alter hs _ ih =>
    have hlaid := (hs.keeps hconfined.operands hlaid).2.2
    exact Iff.trans (holds_keeps_none hlaid hlaid.keeps rfl) ih

/-! ## Separate variables -/

/-- No two variables hold the same container, and the containers that they hold are there.  The
frames of all macros lie one above the other. -/
structure Separate (σ : Session) : Prop where
  distinct : ∀ {x y : Variable} {ref : ArrayRef}, σ.Holds x ref → σ.Holds y ref → x = y
  exist : ∀ {x : Variable} {ref : ArrayRef}, σ.Holds x ref →
    ref.index < σ.world.store.containers.size
  laid : ∀ {i : Nat} {c : Context}, σ.contexts i = some c → c.WellLaid

namespace Separate

theorem laid_set {w' : World} {c? c?' : Option Context} (h : (σ.set i w c?).Separate)
    (hc : ∀ c, c?' = some c → c.WellLaid) {j : Nat} {c : Context}
    (hj : (σ.set i w' c?').contexts j = some c) : c.WellLaid := by
  have hj : (if j = i then c?' else σ.contexts j) = some c := hj
  by_cases hi : j = i
  · rw [if_pos hi] at hj
    exact hc c hj
  · refine h.laid (i := j) ?_
    show (if j = i then c? else σ.contexts j) = some c
    rwa [if_neg hi] at hj ⊢

theorem wellLaid (h : (σ.within i s).Separate) : s.context.WellLaid :=
  h.laid (i := i) (if_pos rfl)

theorem laid_within (h : (σ.within i s).Separate) (hlaid : s'.context.WellLaid) {j : Nat}
    {c : Context} (hj : (σ.within i s').contexts j = some c) : c.WellLaid := by
  refine h.laid_set (fun c hc => ?_) hj
  cases hc
  exact hlaid

/-- A change that adds no holding. -/
theorem of_holds (h : σ.Separate) (hlaid : ∀ {i c}, τ.contexts i = some c → c.WellLaid)
    (hsize : σ.world.store.containers.size ≤ τ.world.store.containers.size)
    (hholds : ∀ {x ref}, τ.Holds x ref → σ.Holds x ref) : τ.Separate where
  distinct hx hy := h.distinct (hholds hx) (hholds hy)
  exist hx := Nat.lt_of_lt_of_le (h.exist (hholds hx)) hsize
  laid := hlaid

/-- A change that adds holdings of one variable, of a container that was just made. -/
theorem of_fresh (h : σ.Separate) (hlaid : ∀ {i c}, τ.contexts i = some c → c.WellLaid)
    (hsize : σ.world.store.containers.size < τ.world.store.containers.size) (z : Variable)
    (hholds : ∀ {x ref}, τ.Holds x ref →
      x = z ∧ ref = ⟨σ.world.store.containers.size⟩ ∨ σ.Holds x ref) : τ.Separate where
  distinct hx hy := by
    rcases hholds hx with ⟨rfl, rfl⟩ | hx
    · rcases hholds hy with ⟨rfl, -⟩ | hy
      · rfl
      · exact absurd (h.exist hy) (Nat.lt_irrefl _)
    · rcases hholds hy with ⟨rfl, rfl⟩ | hy
      · exact absurd (h.exist hx) (Nat.lt_irrefl _)
      · exact h.distinct hx hy
  exist hx := by
    rcases hholds hx with ⟨-, rfl⟩ | hx
    · exact hsize
    · exact Nat.lt_trans (h.exist hx) hsize
  laid := hlaid

/-- What one macro does without writing variables. -/
theorem of_keeps (h : (σ.within i s).Separate) (hkeeps : s.context.Keeps none s'.context)
    (hsymbols : s'.world.symbols = s.world.symbols)
    (hsize : s.world.store.containers.size ≤ s'.world.store.containers.size) :
    (σ.within i s').Separate :=
  h.of_holds (h.laid_within (hkeeps.wellLaid h.wellLaid)) hsize
    (holds_keeps_none h.wellLaid hkeeps hsymbols).1

/-- A variable gets a value that is no array. -/
theorem put (h : (σ.within i s).Separate) (hv : v.isArray = false) :
    (σ.within i (s.put place v)).Separate := by
  refine h.of_holds (h.laid_within (wellLaid_put h.wellLaid)) ?_ fun {x ref} hx => ?_
  · exact Nat.le_of_eq (congrArg (·.containers.size) (store_put s place v).symm)
  · by_cases hvariable : x = place.variable i s.context.fp
    · subst hvariable
      rw [value_of_holds_put hx] at hv
      cases hv
    · exact (holds_put_of_ne h.wellLaid hvariable).1 hx

/-- A variable gets a container that was just made. -/
theorem putNew (h : (σ.within i s).Separate) (e : Entries Value) :
    (σ.within i ((s.make e).put place (.array s.fresh))).Separate := by
  have hmade : (σ.within i (s.make e)).Separate :=
    h.of_keeps h.wellLaid.keeps rfl ((s.size_make e).symm ▸ Nat.le_succ _)
  refine h.of_fresh (h.laid_within (wellLaid_put hmade.wellLaid)) ?_
    (place.variable i s.context.fp) ?_
  · show s.world.store.containers.size <
      ((s.make e).put place (.array s.fresh)).world.store.containers.size
    rw [store_put, s.size_make]
    exact Nat.lt_succ_self _
  · intro x ref hx
    by_cases hvariable : x = place.variable i s.context.fp
    · subst hvariable
      cases value_of_holds_put (s := s.make e) hx
      exact .inl ⟨rfl, rfl⟩
    · have hheld := (holds_put_of_ne (s := s.make e) hmade.wellLaid hvariable).1 hx
      exact .inr ((holds_make h.wellLaid e).1 hheld)

/-- Within an instruction the variables stay separate. -/
theorem during (h : (σ.within i s₀).Separate) (hconfined : s₀.Confined) (hduring : During s₀ s) :
    (σ.within i s).Separate := by
  induction hduring with
  | popped hs =>
    exact h.of_keeps (hs.keeps hconfined.operands) hs.symbols
      (Nat.le_of_eq (congrArg (·.containers.size) hs.store.symm))
  | jump target _ ih => exact ih.of_keeps (ih.wellLaid.jump target) rfl (Nat.le_refl _)
  | push v _ _ ih => exact ih.of_keeps (ih.wellLaid.push v) rfl (Nat.le_refl _)
  | @make s e _ ih =>
    exact ih.of_keeps ih.wellLaid.keeps rfl ((s.size_make e).symm ▸ Nat.le_succ _)
  | store _ _ hv ih => exact ih.put hv
  | storeNew e _ _ ih => exact ih.putNew e
  | @cache s e _ _ ih =>
    exact ih.of_keeps (ih.wellLaid.cache _) rfl ((s.size_make e).symm ▸ Nat.le_succ _)
  | @alter s ref f _ _ ih =>
    exact ih.of_keeps ih.wellLaid.keeps rfl (Nat.le_of_eq (s.size_alter ref f).symm)

/-- A macro is over. -/
theorem gone {c? : Option Context} (h : (σ.set i w c?).Separate) :
    (σ.set i w none).Separate := by
  refine h.of_holds (h.laid_set ?_) (Nat.le_refl _) fun hx => holds_of_gone hx _
  nofun

/-- A macro starts; its variables hold nothing yet. -/
theorem start {p : ProgramRef} {arguments : List Value} {limit : Nat}
    {target : Option DocumentHandle} (h : σ.Separate) (hfree : σ.contexts i = none)
    (hstart : Context.start p arguments limit target = .ok c) :
    (σ.set i σ.world (some c)).Separate := by
  obtain ⟨hlaid, hunset⟩ := Context.wellLaid_start hstart
  have hself : (σ.set i σ.world none).Separate := by
    rw [← hfree, set_self]
    exact h
  refine hself.of_holds (hself.laid_set fun c' hc => ?_) (Nat.le_refl _) fun {x ref} hx => ?_
  · cases hc
    exact hlaid
  · cases x with
    | global id => exact holds_set_global.2 (holds_set_global.1 hx)
    | slot j position =>
      obtain ⟨c', hc', hlocal, hvalue⟩ := holds_set_slot.1 hx
      by_cases hj : j = i
      · rw [if_pos hj] at hc'
        cases hc'
        rw [hunset position hlocal] at hvalue
        cases hvalue
      · refine holds_set_slot.2 ⟨c', ?_, hlocal, hvalue⟩
        rwa [if_neg hj] at hc' ⊢

/-- A call.  The local variables of the new frame hold nothing yet. -/
theorem enter {a : CodeAddress} (h : (σ.within i s₀).Separate) (hconfined : s₀.Confined)
    (hs : Popped s₀ a 0 s) (p : ProgramRef) :
    (σ.within i ⟨s.world, { s.context with
      stack := withFrame s.context.stack (some a) (some s.context.fp) s₀.context.demand
        p.program.locals.length
      fp := s.context.stack.size + 4
      pc := ⟨p, 0⟩ }⟩).Separate := by
  have hseparate := h.during hconfined (.popped hs)
  have hkeeps := hs.keeps hconfined.operands
  have hroom : s.context.fp + s.context.localCount + s₀.context.demand ≤ s.context.stack.size := by
    rw [hkeeps.fp, hkeeps.sameFrames.localCount, hs.size]
    exact hconfined.operands
  obtain ⟨hlaid, hlocals⟩ := hseparate.wellLaid.call p hroom rfl
  rw [hs.pc] at hlaid hlocals
  refine hseparate.of_holds (hseparate.laid_within hlaid) (Nat.le_refl _) (holds_within ?_ ?_)
  · exact fun _ _ hid => hid
  · intro position _ hlocal hvalue
    rcases hlocals position hlocal with hunset | ⟨hlocal, hsame⟩
    · cases hunset.symm.trans hvalue
    · exact ⟨hlocal, hsame.symm.trans hvalue⟩

/-- A return. -/
theorem leave (h : (σ.within i s₀).Separate) (hconfined : s₀.Confined) (hreturned : Returned s₀ t) :
    (σ.within i t).Separate := by
  obtain ⟨hsymbols, hstore⟩ := hreturned.world
  obtain ⟨hlaid, hlocals⟩ := hreturned.wellLaid hconfined.operands h.wellLaid
  refine h.of_holds (h.laid_within hlaid) ?_ (holds_within ?_ ?_)
  · exact Nat.le_of_eq (congrArg (·.containers.size) hstore.symm)
  · intro id _ hid
    rwa [World.GlobalHolds, hsymbols] at hid
  · intro position _ hlocal hvalue
    obtain ⟨hlocal, hsame⟩ := hlocals position hlocal
    exact ⟨hlocal, hsame.symm.trans hvalue⟩

/-- One move of a session. -/
theorem move {host : Host} (h : σ.Separate) (hmove : σ.Moves host τ) : τ.Separate := by
  cases hmove with
  | start hfree hstart => exact h.start hfree hstart
  | step hc hconfined hstep hgoes =>
    obtain ⟨fuel, hstep⟩ := hstep
    rw [← within_self hc] at h
    cases becomes_of_step hstep hconfined.quiet with
    | stays hduring => exact h.during hconfined hduring
    | enters p _ hs _ => exact h.enter hconfined hs p
    | returns _ hreturned => exact h.leave hconfined hreturned
    | ends _ _ => exact absurd rfl hgoes
  | done hc hconfined hstep =>
    obtain ⟨fuel, hstep⟩ := hstep
    rw [← within_self hc] at h
    cases becomes_of_step hstep hconfined.quiet with
    | ends _ hended =>
      obtain ⟨hs, hworld⟩ := hended
      rw [hworld]
      exact (h.during hconfined (.popped hs)).gone
  | fail hc hconfined hstep =>
    rw [← within_self hc] at h
    obtain ⟨s₁, hduring, hworld⟩ := during_of_halt hstep hconfined.quiet
    rw [hworld]
    exact (h.during hconfined hduring).gone
  | drop i =>
    have hself : (σ.set i σ.world (σ.contexts i)).Separate := by
      rw [set_self]
      exact h
    exact hself.gone

theorem reaches {host : Host} (h : σ.Separate) (hreaches : σ.Reaches host τ) : τ.Separate := by
  induction hreaches with
  | start => exact h
  | move _ hmove ih => exact ih.move hmove

end Separate

/-! ## Slices -/

/-- A slice of a macro is a sequence of moves. -/
theorem Reaches.slice {host : Host} {status : Status} {fuel executed : Nat} {w' : World}
    (hτ : σ.Reaches host τ) (hc : τ.contexts i = some c)
    (hconfined : ∀ s, host.Runs (fun _ => True) (fun _ _ => False) ⟨τ.world, c⟩ s → s.Confined)
    (hslice : host.runSlice fuel executed τ.world c = some (status, w')) :
    σ.Reaches host (τ.set i w' status.context?) := by
  induction fuel generalizing τ c executed with
  | zero => cases hslice
  | succ fuel ih =>
    have hnow := hconfined _ .start
    rw [Host.runSlice] at hslice
    split at hslice
    · next s hstep =>
      have hmoved : σ.Reaches host (τ.within i s) :=
        hτ.move (.step hc hnow ⟨fuel, hstep⟩ (by decide))
      split at hslice
      · cases hslice
        exact hmoved
      · have hlast := ih hmoved (if_pos rfl) (fun t ht => hconfined t
          (ht.after_step trivial ⟨fuel, hstep⟩ (by decide))) hslice
        rwa [within, set_set] at hlast
    · next s hstep =>
      cases hslice
      exact hτ.move (.step hc hnow ⟨fuel, hstep⟩ (by decide))
    · next s hstep =>
      have hmoved : σ.Reaches host (τ.set i s.world none) := hτ.move (.done hc hnow ⟨fuel, hstep⟩)
      split at hslice
      · cases hslice
        exact hmoved
      · cases hslice
        exact hmoved
    · next s hstep =>
      cases hslice
      exact hτ.move (.fail hc hnow hstep)
    · cases hslice

/-! ## Assignments and elements -/

/-- A variable holds the container that was written to it. -/
theorem holds_put (hlaid : s.context.WellLaid) (hplace : s₀.Names place)
    (hsymbols : s.world.symbols = s₀.world.symbols)
    (hlocal : ∀ offset, place = .frame offset → offset < s.context.localCount) :
    (σ.within i (s.put place (.array ref))).Holds (place.variable i s.context.fp) ref := by
  cases hplace with
  | @frame _ _ offset _ _ _ _ =>
    have hoffset := hlocal offset rfl
    have hroom := hlaid.room
    refine holds_set_slot.2 ⟨_, if_pos rfl, ⟨_, _, .here, Nat.le_add_right _ _, ?_⟩, ?_⟩
    · exact Nat.add_lt_add_left hoffset _
    · rw [State.put, State.withStack, Array.getElem?_setIfInBounds, if_pos rfl, if_pos (by omega)]
  | @global _ symbol _ hsymbol hkind =>
    refine holds_set_global.2 ⟨{ symbol with value := .array ref }, ?_, hkind, rfl⟩
    rw [State.put, SymbolTable.setValue, SymbolTable.get?_modify, hsymbols, hsymbol]
    rfl

/-- An array is assigned as a new container with the same entries. -/
theorem holds_assign {outcome : Outcome} (hlaid : s₀.context.WellLaid) (hconfined : s₀.Confined)
    (hassigns : Effects.Assigns s₀ outcome t)
    (htop : s₀.context.stack.back? = some (.array ref)) :
    ∃ place, s₀.Names place ∧
      (σ.within i t).Holds (place.variable i s₀.context.fp) s₀.fresh ∧
      t.world.store.entries s₀.fresh = s₀.world.store.entries ref := by
  obtain ⟨-, place, v, s, hnames, hv, hs, rfl⟩ := hassigns
  rw [Array.back?_eq_getElem?] at htop
  cases htop.symm.trans hv
  have hkeeps := hs.keeps hconfined.operands
  have hfresh : s.fresh = s₀.fresh := by rw [State.fresh, hs.store, State.fresh]
  have hlaid' : (s.make (s.world.store.entries ref)).context.WellLaid := hkeeps.wellLaid hlaid
  refine ⟨place, hnames, ?_, ?_⟩
  · rw [← hkeeps.fp, ← hfresh]
    refine holds_put hlaid' hnames hs.symbols fun offset hoffset => ?_
    subst hoffset
    exact hkeeps.sameFrames.localCount ▸ hconfined.locals offset hnames
  · rw [State.assign, store_put, ← hfresh, ← hs.store]
    exact Store.entries_alloc _ _

section Elements

variable {op : Opcode} (hop : op = .setElement ∨ op = .deleteElement)
  (hnext : s₀.context.nextIs op)
include hop hnext

/-- The instructions that change elements name no variables. -/
theorem not_names_of_alters : ¬ s₀.Names place := by
  have hno : ∀ id, ¬ s₀.Operand id := by
    rintro id ⟨op', j, hop', hrole, -⟩
    cases (Effects.nextIs_iff.1 hnext).symm.trans hop'
    have hroles : op.roles = [.count] := by
      rcases hop with rfl | rfl
      · rfl
      · rfl
    rw [hroles] at hrole
    cases j with
    | zero => cases hrole
    | succ j => cases hrole
  intro hnames
  cases hnames with
  | frame hoperand _ _ _ => exact hno _ hoperand
  | global hoperand _ _ => exact hno _ hoperand

/-- They stay in their frame. -/
theorem during_of_alters {outcome : Outcome} (hbecomes : Becomes s₀ outcome t) : During s₀ t := by
  have hslot := Effects.nextIs_iff.1 hnext
  have hcall : ¬ s₀.context.nextIs .call := by
    rcases hop with rfl | rfl
    · simp [Effects.nextIs_iff, hslot]
    · simp [Effects.nextIs_iff, hslot]
  have hreturns : ¬ s₀.context.Returns := by
    rcases hop with rfl | rfl
    · simp [Context.Returns, Effects.nextIs_iff, hslot]
    · simp [Context.Returns, Effects.nextIs_iff, hslot]
  cases hbecomes with
  | stays hduring => exact hduring
  | enters p h _ _ => exact absurd h hcall
  | returns h _ => exact absurd h hreturns
  | ends h _ => exact absurd h hreturns

/-- They change no variable, and no container but the one they are given. -/
theorem kept_of_alters {ref' : ArrayRef} (hlaid : s₀.context.WellLaid) (hconfined : s₀.Confined)
    (hdeepest : s₀.deepest? = some (.array ref)) (hne : ref' ≠ ref)
    (hexists : ref'.index < s₀.world.store.containers.size) (hduring : During s₀ s) :
    ((σ.within i s).Holds x ref' ↔ (σ.within i s₀).Holds x ref') ∧
      s.world.store.entries ref' = s₀.world.store.entries ref' := by
  constructor
  · exact holds_during hlaid hconfined hduring fun _ hnames =>
      absurd hnames (not_names_of_alters hop hnext)
  · refine (hduring.entries hexists fun f halters => hne ?_).1
    have hgiven : s₀.deepest? = some (.array ref') := by
      cases halters with
      | insert _ _ _ h => exact h
      | erase _ _ h => exact h
      | clear _ h => exact h
    cases hgiven.symm.trans hdeepest
    rfl

end Elements

theorem separate_idle
    (hdistinct : ∀ id id' ref, w.GlobalHolds id ref → w.GlobalHolds id' ref → id = id')
    (hexist : ∀ id ref, w.GlobalHolds id ref → ref.index < w.store.containers.size) :
    (idle w).Separate where
  distinct hx hy := by
    cases hx with
    | global hx =>
      cases hy with
      | global hy => rw [hdistinct _ _ _ hx hy]
      | slot hc _ _ => cases hc
    | slot hc _ _ => cases hc
  exist hx := by
    cases hx with
    | global hx => exact hexist _ _ hx
    | slot hc _ _ => cases hc
  laid := nofun

end Session

/-! ## Two macros with copies of one array -/

namespace Sample

/-- A macro that copies a global array to its local variable, and changes its copy. -/
def copier : ProgramRef :=
  ⟨0, ⟨#[.op .pushSymbol, .symbol ⟨0⟩, .op .assign, .symbol ⟨1⟩, .op .pushSymbol, .symbol ⟨1⟩,
    .op .pushArgumentCount, .op .duplicate, .op .setElement, .immediate 1], [⟨1⟩]⟩⟩

def listSymbol : Symbol :=
  ⟨"$list", .global, .array ⟨0⟩⟩

def copySymbol : Symbol :=
  ⟨"copy", .frameLocal, .int 0⟩

/-- The world that the macro runs in, with its containers and what was executed so far. -/
def copyWorld (containers : Array (Entries Value)) (dispatches : Array Dispatch) : World :=
  { World.ofSymbols ⟨#[listSymbol, copySymbol], [⟨0⟩], [⟨1⟩], 0, 0⟩ with
    store := ⟨containers⟩, dispatches }

/-- The macro with a value of its variable and operands on its stack. -/
def copyContext (v : Value) (operands : List Value) (position : Nat) : Context :=
  ⟨#[.address none, .frame none, .int 0, .unset, v] ++ operands.toArray, 16, 4, ⟨copier, position⟩,
    none, none⟩

/-- The array that is copied. -/
def list : Entries Value :=
  Entries.empty.insert "a" (.int 1)

/-- Of two macros that have started, the second one has copied the array. -/
def copied : Session :=
  ((Session.idle (copyWorld #[list] #[])).set 0 (copyWorld #[list] #[])
    (some (copyContext .unset [] 0))).within 1
      ⟨copyWorld #[list, list] #[⟨.pushSymbol, 0, 5⟩, ⟨.assign, 2, 6⟩],
        copyContext (.array ⟨1⟩) [] 4⟩

/-- The first one has done so too, and is about to change its copy. -/
def updating : State :=
  ⟨copyWorld #[list, list, list] #[⟨.pushSymbol, 0, 5⟩, ⟨.assign, 2, 6⟩, ⟨.pushSymbol, 0, 5⟩,
      ⟨.assign, 2, 6⟩, ⟨.pushSymbol, 4, 5⟩, ⟨.pushArgumentCount, 6, 6⟩, ⟨.duplicate, 7, 7⟩],
    copyContext (.array ⟨2⟩) [.array ⟨2⟩, .int 0, .int 0] 8⟩

/-- It has changed its copy. -/
def updated : State :=
  ⟨copyWorld #[list, list, list.insert "0" (.int 0)] (updating.world.dispatches.push
      ⟨.setElement, 8, 8⟩),
    copyContext (.array ⟨2⟩) [] 10⟩

variable {containers : Array (Entries Value)} {dispatches : Array Dispatch} {σ τ : Session}
  {i : Nat}

theorem copyWorld_get? {id : SymbolId} {symbol : Symbol}
    (h : (copyWorld containers dispatches).symbols.get? id = some symbol) :
    id = ⟨0⟩ ∧ symbol = listSymbol ∨ id = ⟨1⟩ ∧ symbol = copySymbol := by
  obtain ⟨index⟩ := id
  have h : #[listSymbol, copySymbol][index.toNat]? = some symbol := h
  match hn : index.toNat with
  | 0 =>
    cases UInt32.toNat_inj.1 (hn.trans (by decide : 0 = UInt32.toNat 0))
    cases h
    exact .inl ⟨rfl, rfl⟩
  | 1 =>
    cases UInt32.toNat_inj.1 (hn.trans (by decide : 1 = UInt32.toNat 1))
    cases h
    exact .inr ⟨rfl, rfl⟩
  | n + 2 =>
    rw [hn] at h
    cases h

theorem isLocal_copy (v : Value) (operands : List Value) (position : Nat) :
    (copyContext v operands position).IsLocal 4 :=
  ⟨4, copier, .here, Nat.le_refl _, Nat.lt_succ_self _⟩

theorem confined_copy {v : Value} {operands : List Value} {position : Nat}
    (hoperands : (copyContext v operands position).demand ≤ operands.length) :
    State.Confined ⟨copyWorld containers dispatches, copyContext v operands position⟩ where
  quiet := by
    rintro ⟨id, symbol, routine, -, hsymbol, hvalue, -⟩
    rcases copyWorld_get? hsymbol with ⟨-, rfl⟩ | ⟨-, rfl⟩
    · cases hvalue
    · cases hvalue
  operands := by
    have hsize : (copyContext v operands position).stack.size = 5 + operands.length :=
      Array.size_append
    rw [hsize]
    exact Nat.add_le_add_left hoperands 5
  locals := by
    rintro offset (⟨_, hsymbol, hkind, hoffset⟩ | _)
    rcases copyWorld_get? hsymbol with ⟨-, rfl⟩ | ⟨-, rfl⟩
    · cases hkind
    · cases hoffset
      exact Nat.zero_lt_one

theorem reaches_turn {v : Value} {operands : List Value} {position : Nat} {t : State}
    (h : τ.Reaches host (σ.within i ⟨copyWorld containers dispatches,
      copyContext v operands position⟩))
    (hstep : Execution.step host (host.resume 0) ⟨copyWorld containers dispatches,
      copyContext v operands position⟩ = .ok .next t)
    (hoperands : (copyContext v operands position).demand ≤ operands.length) :
    τ.Reaches host (σ.within i t) := by
  have hmoved := h.move (.step (if_pos rfl) (confined_copy hoperands) ⟨0, hstep⟩ (by decide))
  rwa [Session.within, Session.within, Session.set_set] at hmoved

/-- One macro copies the array. -/
theorem reaches_copy (h : τ.Reaches host (σ.within i ⟨copyWorld containers dispatches,
      copyContext .unset [] 0⟩)) :
    τ.Reaches host (σ.within i ⟨copyWorld (containers.push (Store.entries ⟨containers⟩ ⟨0⟩))
        ((dispatches.push ⟨.pushSymbol, 0, 5⟩).push ⟨.assign, 2, 6⟩),
      copyContext (.array ⟨containers.size⟩) [] 4⟩) := by
  have hpushed : τ.Reaches host (σ.within i
      ⟨copyWorld containers (dispatches.push ⟨.pushSymbol, 0, 5⟩),
        copyContext .unset [.array ⟨0⟩] 2⟩) := reaches_turn h rfl (Nat.le_refl _)
  exact reaches_turn hpushed rfl (Nat.le_refl _)

/-- It gets ready to change its copy. -/
theorem reaches_ready {ref : ArrayRef} (h : τ.Reaches host
      (σ.within i ⟨copyWorld containers dispatches, copyContext (.array ref) [] 4⟩)) :
    τ.Reaches host (σ.within i ⟨copyWorld containers (((dispatches.push ⟨.pushSymbol, 4, 5⟩).push
        ⟨.pushArgumentCount, 6, 6⟩).push ⟨.duplicate, 7, 7⟩),
      copyContext (.array ref) [.array ref, .int 0, .int 0] 8⟩) := by
  have hpushed : τ.Reaches host (σ.within i
      ⟨copyWorld containers (dispatches.push ⟨.pushSymbol, 4, 5⟩),
        copyContext (.array ref) [.array ref] 6⟩) := reaches_turn h rfl (Nat.le_refl _)
  have hcounted : τ.Reaches host (σ.within i
      ⟨copyWorld containers ((dispatches.push ⟨.pushSymbol, 4, 5⟩).push ⟨.pushArgumentCount, 6, 6⟩),
        copyContext (.array ref) [.array ref, .int 0] 7⟩) :=
    reaches_turn hpushed rfl (Nat.zero_le _)
  exact reaches_turn hcounted rfl (Nat.le_add_left 1 1)

theorem reaches_updating :
    (Session.idle (copyWorld #[list] #[])).Reaches host (copied.within 0 updating) := by
  have hstart (σ : Session) (i : Nat) (hfree : σ.contexts i = none) :
      σ.Moves host (σ.set i σ.world (some (copyContext .unset [] 0))) :=
    .start hfree (rfl : Context.start copier [] 16 none = .ok (copyContext .unset [] 0))
  have hstarted := (Session.Reaches.start.move (hstart (.idle (copyWorld #[list] #[])) 0 rfl)).move
    (hstart _ 1 rfl)
  have hcopied : (Session.idle (copyWorld #[list] #[])).Reaches host copied :=
    reaches_copy hstarted
  have hself : copied.within 0 ⟨copied.world, copyContext .unset [] 0⟩ = copied :=
    Session.within_self rfl
  rw [← hself] at hcopied
  exact reaches_ready (reaches_copy hcopied)

end Sample

/-! ## Variables never alias -/

namespace Session

/-- Let no two global symbols of a world hold the same container, and let the containers they hold
be in its store.  In every session that confined instructions lead to, no two variables hold the
same container.

An assignment of an array gives its target a new container with the same entries.  An instruction
that inserts or deletes elements of the array of one variable leaves the array of every other
variable, and its entries, as they are, also if it fails. -/
theorem variables_never_alias {host : Host}
    (hdistinct : ∀ id id' ref, w.GlobalHolds id ref → w.GlobalHolds id' ref → id = id')
    (hexist : ∀ id ref, w.GlobalHolds id ref → ref.index < w.store.containers.size)
    (hreaches : (idle w).Reaches host σ) :
    (∀ x y ref, σ.Holds x ref → σ.Holds y ref → x = y) ∧
    (∀ i c fuel, σ.contexts i = some c → State.Confined ⟨σ.world, c⟩ →
      (∀ ref outcome t, c.nextIs .assign → c.stack.back? = some (.array ref) →
        Execution.step host (host.resume fuel) ⟨σ.world, c⟩ = .ok outcome t →
        ∃ place new, State.Names ⟨σ.world, c⟩ place ∧
          (σ.within i t).Holds (place.variable i c.fp) new ∧
          new.index = σ.world.store.containers.size ∧
          t.world.store.entries new = σ.world.store.entries ref) ∧
      (∀ op x y ref ref', op = .setElement ∨ op = .deleteElement → c.nextIs op →
        State.deepest? ⟨σ.world, c⟩ = some (.array ref) → σ.Holds x ref → σ.Holds y ref' →
        x ≠ y →
        (∀ outcome t, Execution.step host (host.resume fuel) ⟨σ.world, c⟩ = .ok outcome t →
          (σ.within i t).Holds y ref' ∧
          t.world.store.entries ref' = σ.world.store.entries ref') ∧
        (∀ halt t, Execution.step host (host.resume fuel) ⟨σ.world, c⟩ = .error halt t →
          t.world.store.entries ref' = σ.world.store.entries ref'))) := by
  have hseparate := (separate_idle hdistinct hexist).reaches hreaches
  refine ⟨fun _ _ _ => hseparate.distinct, fun i c fuel hc hconfined => ?_⟩
  have hlaid := hseparate.laid hc
  constructor
  · intro ref outcome t hassign htop hstep
    obtain ⟨place, hnames, hholds, hentries⟩ :=
      holds_assign hlaid hconfined (assigns_of_step hstep hassign) htop
    exact ⟨place, _, hnames, hholds, rfl, hentries⟩
  · intro op x y ref ref' hop hnext hdeepest hx hy hne
    have hrefs : ref' ≠ ref := by
      rintro rfl
      exact hne (hseparate.distinct hx hy)
    have hkept {s : State} (hduring : During ⟨σ.world, c⟩ s) :
        ((σ.within i s).Holds y ref' ↔ (σ.within i ⟨σ.world, c⟩).Holds y ref') ∧
          s.world.store.entries ref' = σ.world.store.entries ref' :=
      kept_of_alters hop hnext hlaid hconfined hdeepest hrefs (hseparate.exist hy) hduring
    rw [within_self hc] at hkept
    constructor
    · intro outcome t hstep
      obtain ⟨hholds, hentries⟩ :=
        hkept (during_of_alters hop hnext (becomes_of_step hstep hconfined.quiet))
      exact ⟨hholds.2 hy, hentries⟩
    · intro halt t hstep
      obtain ⟨s, hduring, hworld⟩ := during_of_halt hstep hconfined.quiet
      rw [hworld]
      exact (hkept hduring).2

/-- The first of two macros with copies of one array changes its copy, while the other one is
suspended. -/
theorem variables_never_alias_in_copies :
    (idle (Sample.copyWorld #[Sample.list] #[])).Reaches Sample.host
      (Sample.copied.within 0 Sample.updating) ∧
    Execution.step Sample.host (Sample.host.resume 0) Sample.updating = .ok .next Sample.updated ∧
    ((Sample.copied.within 0 Sample.updating).within 0 Sample.updated).Holds (.slot 1 4) ⟨1⟩ ∧
    Sample.updated.world.store.entries ⟨1⟩ = Sample.updating.world.store.entries ⟨1⟩ := by
  have hglobal {id : SymbolId} {ref : ArrayRef}
      (h : (Sample.copyWorld #[Sample.list] #[]).GlobalHolds id ref) : id = ⟨0⟩ ∧ ref = ⟨0⟩ := by
    obtain ⟨symbol, hsymbol, hkind, hvalue⟩ := h
    rcases Sample.copyWorld_get? hsymbol with ⟨rfl, rfl⟩ | ⟨-, rfl⟩
    · cases hvalue
      exact ⟨rfl, rfl⟩
    · cases hkind
  have hkept := (variables_never_alias (w := Sample.copyWorld #[Sample.list] #[])
    (fun _ _ _ h h' => (hglobal h).1.trans (hglobal h').1.symm)
    (fun _ _ h => (hglobal h).2 ▸ Nat.zero_lt_one) Sample.reaches_updating).2 0 _ 0 rfl
    (Sample.confined_copy (by decide))
  refine ⟨Sample.reaches_updating, rfl, ?_⟩
  exact (hkept.2 .setElement (.slot 0 4) (.slot 1 4) ⟨2⟩ ⟨1⟩ (.inl rfl) rfl rfl
    (.slot rfl (Sample.isLocal_copy _ _ _) rfl) (.slot rfl (Sample.isLocal_copy _ _ _) rfl)
    (by decide)).1 _ _ rfl

end Session

end MacroMachine
