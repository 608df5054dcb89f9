import MacroMachine.Proofs.ArgumentArrays

/-!
# Reading arguments

There are five ways to read the arguments of a frame: their number, by an instruction of its own or
by a symbol, a single argument, by its number counted from one or by a symbol counted from zero, and
all of them as an array.  They measure from the frame pointer in different ways, and calls and
returns move it all the time.  The main result is that they agree whenever the frame is the current
one, from the time at which it is entered until it returns.

*Arrays.*  The array is one container however often it is asked for, and it is the frame's own.
The container can change once it has been given away, so what it holds is said of the moment at
which it is made.
-/

namespace MacroMachine

/-! ## The arguments of the current frame -/

/-- These are the arguments of the current frame. -/
structure Context.HasArguments (c : Context) (arguments : List Value) : Prop where
  count : c.argumentCount = .ok arguments.length
  room : 4 + arguments.length ≤ c.fp
  slots : ∀ i < arguments.length, c.stack[c.fp - (4 + arguments.length) + i]? = arguments[i]?

namespace Context.HasArguments

variable {c c' : Context} {arguments : List Value}

theorem argument (h : c.HasArguments arguments) {i : Nat} {v : Value}
    (hv : arguments[i]? = some v) : c.argument i = .ok v := by
  have hlt := (List.getElem?_eq_some_iff.1 hv).1
  have hroom := h.room
  have hslot : c.stack[c.fp - (4 + arguments.length - i)]? = some v := by
    rw [← hv, ← h.slots i hlt]
    congr 1
    omega
  simp only [Context.argument, h.count, if_pos hlt]
  exact Context.below_of_slot (by omega) hslot

theorem list (h : c.HasArguments arguments) : c.arguments = .ok arguments := by
  have hroom := h.room
  rcases Context.arguments_of_count h.count with ⟨hlt, -⟩ | ⟨-, -, values, hvalues, hlength, hslots⟩
  · omega
  · have hsame : values = arguments := by
      refine List.ext_getElem? fun i => ?_
      by_cases hi : i < arguments.length
      · rw [hslots i hi, h.slots i hi]
      · rw [List.getElem?_eq_none (by omega), List.getElem?_eq_none (by omega)]
    rw [hvalues, hsame]

/-- The slot for the array, which lies above, does not matter. -/
theorem agree (h : c.HasArguments arguments) (hfp : c'.fp = c.fp)
    (hsame : ∀ i, i + 1 < c.fp → c'.stack[i]? = c.stack[i]?) : c'.HasArguments arguments := by
  have hroom := h.room
  obtain ⟨n, hslot, hn, hlength⟩ := Context.argumentCount_eq_ok h.count
  refine ⟨?_, hfp ▸ hroom, fun i hi => ?_⟩
  · rw [hlength]
    refine Context.argumentCount_of_slot (by omega) ?_ hn
    rw [hfp, hsame _ (by omega)]
    exact hslot
  · rw [hfp, hsame _ (by omega)]
    exact h.slots i hi

/-- A frame that is made over arguments has them. -/
theorem of_withFrame {base : Array Value} {returnTo : Option CodeAddress} {caller : Option Nat}
    {locals : Nat} (hfew : arguments.length < 2147483648)
    (hstack : c.stack = withFrame (base ++ arguments.toArray) returnTo caller arguments.length
      locals)
    (hfp : c.fp = base.size + arguments.length + 4) :
    c.HasArguments arguments := by
  have hsize : (base ++ arguments.toArray).size = base.size + arguments.length := by simp
  obtain ⟨hn, hnat⟩ := toInt_ofNat_of_few hfew
  refine ⟨(Context.argumentCount_of_slot (by omega) ?_ hn).trans (by rw [hnat]), by omega,
    fun i hi => ?_⟩
  · rw [hstack, show c.fp - 2 = (base ++ arguments.toArray).size + 2 by omega]
    exact withFrame_slot _ _ _ _ _ (i := 2) (by decide)
  · rw [show c.fp - (4 + arguments.length) + i = base.size + i by omega, hstack,
      withFrame_below _ _ _ _ (by omega), Array.getElem?_append_right (by omega),
      Nat.add_sub_cancel_left, List.getElem?_toArray]

end Context.HasArguments

variable {host : Host} {nested : Runner} {s t u : State} {arguments : List Value}

/-- In this state a frame has just been entered with these arguments, at the start of a macro or by
a call. -/
inductive Host.Opens (host : Host) (arguments : List Value) (t : State) : Prop where
  | started {p : ProgramRef} {limit : Nat} {target : Option DocumentHandle} :
      Context.start p arguments limit target = .ok t.context → Opens host arguments t
  | called {s : State} {id : SymbolId} {p : ProgramRef} {base : Array Value} :
      s.CallsFunction id p arguments.length → s.context.stack = base ++ arguments.toArray →
      host.Steps s .next t → Opens host arguments t

/-- The stack of a frame that has just been entered. -/
theorem Host.Opens.stack_eq (h : host.Opens arguments t) :
    ∃ base returnTo caller locals,
      t.context.stack = withFrame (base ++ arguments.toArray) returnTo caller arguments.length
        locals ∧
      t.context.fp = base.size + arguments.length + 4 := by
  cases h with
  | @started p _ _ hstart =>
    obtain ⟨-, heq⟩ := Context.start_eq_ok hstart
    refine ⟨#[], none, none, p.program.locals.length, ?_, ?_⟩
    · rw [heq, Array.empty_append]
    · rw [heq]
      simp
  | @called s id p base hcalls hstack hstep =>
    obtain ⟨fuel, hstep⟩ := hstep
    rw [hcalls.step_eq, Context.enter] at hstep
    rcases Context.pushFrame_cases (some s.backAddress) (some s.context.fp) arguments.length p
      { s.context with pc := s.backAddress } with ⟨-, -, heq⟩ | ⟨e, -, heq⟩
    · rw [heq] at hstep
      cases hstep
      refine ⟨base, _, _, _, congrArg (withFrame · _ _ _ _) hstack, ?_⟩
      show s.context.stack.size + 4 = _
      rw [hstack]
      simp
    · rw [heq] at hstep
      cases hstep

theorem Host.Opens.hasArguments (h : host.Opens arguments t)
    (hfew : arguments.length < 2147483648) : t.context.HasArguments arguments := by
  obtain ⟨base, returnTo, caller, locals, hstack, hfp⟩ := h.stack_eq
  exact .of_withFrame hfew hstack hfp

/-- A frame that has just been entered keeps no array. -/
theorem Host.Opens.unset (h : host.Opens arguments t) :
    t.context.stack[t.context.fp - 1]? = some .unset := by
  obtain ⟨base, returnTo, caller, locals, hstack, hfp⟩ := h.stack_eq
  have hsize : (base ++ arguments.toArray).size = base.size + arguments.length := by simp
  rw [hstack, show t.context.fp - 1 = (base ++ arguments.toArray).size + 3 by omega]
  exact withFrame_slot _ _ _ _ _ (i := 3) (by decide)

/-! ## Single arguments -/

/-- The next instruction asks for the argument with a number, which lies on top of the stack as a
number or as a text that stands for one. -/
structure State.AsksArgument (s : State) (n : Int32) (base : Array Value) : Prop where
  next : s.context.nextIs .pushArgument
  number : ∃ x, s.context.stack = base.push x ∧ x.toInt = .ok n

/-- The next instruction reads the argument symbol with an index. -/
structure State.ReadsArgument (s : State) (id : SymbolId) (index : Int32) : Prop
    extends s.Reads id where
  argument : ∃ symbol, s.world.symbols.get? id = some symbol ∧ symbol.kind = .argument ∧
    symbol.value = .int index

/-- How the number of arguments and single arguments are read. -/
structure State.ReadsArguments (s : State) (host : Host) (arguments : List Value) : Prop where
  count : ∀ nested, s.context.nextIs .pushArgumentCount →
    s.context.stack.size < s.context.limit →
    Execution.step host nested s =
      .ok .next (s.past .pushArgumentCount (s.context.stack.push (.ofNat arguments.length)))
  countSymbol : ∀ nested id, s.ReadsArgument id SymbolTable.argumentCountIndex →
    s.context.stack.size < s.context.limit →
    Execution.step host nested s =
      .ok .next (s.past .pushSymbol (s.context.stack.push (.ofNat arguments.length)))
  /-- Numbers are counted from one. -/
  number : ∀ nested n base v, s.AsksArgument n base → base.size < s.context.limit →
    1 ≤ n.toInt → arguments[n.toInt.toNat - 1]? = some v →
    Execution.step host nested s = .ok .next (s.past .pushArgument (base.push v))
  noNumber : ∀ nested n base, s.AsksArgument n base →
    n.toInt < 1 ∨ arguments.length < n.toInt →
    ∃ t, Execution.step host nested s =
      .error (.fault (.undefinedArgument ("$args[" ++ Numeral.render n ++ "]"))) t
  /-- Indexes are counted from zero. -/
  symbol : ∀ nested id index v, s.ReadsArgument id index →
    s.context.stack.size < s.context.limit → 0 ≤ index.toInt →
    arguments[index.toInt.toNat]? = some v → v.isUnset = false →
    Execution.step host nested s = .ok .next (s.past .pushSymbol (s.context.stack.push v))
  noSymbol : ∀ nested id index, s.ReadsArgument id index →
    index ≠ SymbolTable.argumentCountIndex → index.toInt < 0 ∨ arguments.length ≤ index.toInt →
    ∃ t, Execution.step host nested s =
      .error (.fault (.undefinedArgument (s.world.symbols.name id))) t

section Single

variable (h : s.context.HasArguments arguments)
include h

/-- What an argument symbol stands for. -/
theorem State.ReadsArgument.symbolValue_eq {invoke : Execution.Caller} {id : SymbolId}
    {index : Int32} (hreads : s.ReadsArgument id index) :
    Execution.symbolValue invoke id s.reading =
      (if index = SymbolTable.argumentCountIndex then
        pure (.ofNat arguments.length)
      else if index.toInt < 0 ∨ arguments.length ≤ index.toInt.toNat then do
        Execution.raise (.undefinedArgument (← Execution.symbolName id))
      else
        Execution.view (Context.argument index.toInt.toNat) : Execution Value) s.reading := by
  obtain ⟨symbol, hget, hkind, hvalue⟩ := hreads.argument
  have hfound : Execution.symbol id s.reading = .ok symbol s.reading := by
    simp only [Execution.symbol, show s.reading.world.symbols.get? id = some symbol from hget]
  have hcount : Context.argumentCount s.reading.context = .ok arguments.length := h.count
  unfold Execution.symbolValue
  rw [Execution.bind_of_ok hfound]
  simp only [hkind, hvalue]
  exact Execution.bind_of_ok (Execution.view_of_ok hcount)

/-- What becomes of the number of an argument. -/
theorem State.AsksArgument.step_eq {n : Int32} {base : Array Value} (hasks : s.AsksArgument n base)
    (hsize : s.context.fp ≤ s.context.stack.size) :
    Execution.step host nested s =
      (if n.toInt < 1 ∨ arguments.length < n.toInt.toNat then
        Execution.raise (.undefinedArgument ("$args[" ++ Numeral.render n ++ "]"))
      else do
        Execution.push (← Execution.view (Context.argument (n.toInt.toNat - 1)))
        return .next : Execution Outcome) (s.past .pushArgument base) ∧
      (s.past .pushArgument base).context.HasArguments arguments := by
  obtain ⟨x, hstack, hx⟩ := hasks.number
  have hbase : s.context.stack.size = base.size + 1 := by
    rw [hstack, Array.size_push]
  -- the number lies above the arguments, so it can be taken off
  have harguments : (s.past .pushArgument base).context.HasArguments arguments := by
    refine h.agree rfl fun i hi => ?_
    have hlt : i < base.size := by omega
    rw [hstack]
    exact (push_below x hlt).symm
  have hpop : Execution.pop (s.past .pushArgument s.context.stack) =
      .ok x (s.past .pushArgument base) :=
    Execution.transition_of_ok (Context.pop_of_stack hstack)
  refine ⟨?_, harguments⟩
  rw [Execution.step_of_opcode (Effects.nextIs_iff.1 hasks.next)]
  show Execution.pushArgument (s.past .pushArgument s.context.stack) = _
  unfold Execution.pushArgument
  rw [Execution.bind_of_ok hpop, hx]
  refine Eq.trans (Execution.bind_of_ok rfl) ?_
  exact Execution.bind_of_ok (Execution.view_of_ok harguments.count)

theorem Context.HasArguments.readsArguments (hsize : s.context.fp ≤ s.context.stack.size) :
    s.ReadsArguments host arguments where
  count nested hnext hroom := by
    have hcount : Context.argumentCount
        (s.past .pushArgumentCount s.context.stack).context = .ok arguments.length := h.count
    rw [Execution.step_of_opcode (Effects.nextIs_iff.1 hnext)]
    refine Eq.trans (Execution.bind_of_ok (Execution.view_of_ok hcount)) ?_
    exact Execution.push_next_of_room _ hroom
  countSymbol nested id hreads hroom := by
    refine hreads.step_eq_ok_iff.2 ⟨_, s.reading, ?_, rfl, hroom, rfl, rfl⟩
    rw [hreads.symbolValue_eq h, if_pos rfl]
    rfl
  number nested n base v hasks hroom hpos hv := by
    obtain ⟨hstep, harguments⟩ := hasks.step_eq h hsize
    have hlt := (List.getElem?_eq_some_iff.1 hv).1
    rw [hstep, if_neg (by omega)]
    refine Eq.trans (Execution.bind_of_ok (Execution.view_of_ok (harguments.argument hv))) ?_
    exact Execution.push_next_of_room _ hroom
  noNumber nested n base hasks hrange := by
    obtain ⟨hstep, -⟩ := hasks.step_eq h hsize
    rw [hstep, if_pos (by omega)]
    exact ⟨_, rfl⟩
  symbol nested id index v hreads hroom hpos hv hset := by
    have hlt := (List.getElem?_eq_some_iff.1 hv).1
    have hne : index ≠ SymbolTable.argumentCountIndex := by
      rintro rfl
      exact absurd hpos (by decide)
    have hargument : Context.argument index.toInt.toNat s.reading.context = .ok v :=
      Context.HasArguments.argument (c := s.reading.context) ⟨h.count, h.room, h.slots⟩ hv
    refine hreads.step_eq_ok_iff.2 ⟨v, s.reading, ?_, hset, hroom, rfl, rfl⟩
    rw [hreads.symbolValue_eq h, if_neg hne, if_neg (by omega)]
    exact Execution.view_of_ok hargument
  noSymbol nested id index hreads hne hrange := by
    have hvalue : Execution.symbolValue (Execution.invoke host nested) id s.reading =
        .error (.fault (.undefinedArgument (s.world.symbols.name id))) s.reading := by
      rw [hreads.symbolValue_eq h, if_neg hne, if_pos (by omega)]
      rfl
    exact ⟨_, hreads.step_eq.trans (Execution.bind_of_error hvalue)⟩

end Single

/-! ## Arrays -/

/-- Different numbers have different decimal texts. -/
theorem eq_of_toString_eq {m n : Nat} (h : toString m = toString n) : m = n := by
  have hdigits : Nat.toDigits 10 m = Nat.toDigits 10 n := by
    simpa using congrArg String.toList h
  have hvalue := congrArg (Nat.ofDigitChars 10 · 0) hdigits
  simpa only [Nat.ofDigitChars_ten_toDigits] using hvalue

theorem Execution.argumentEntries_concat (arguments : List Value) (v : Value) :
    argumentEntries (arguments ++ [v]) =
      (argumentEntries arguments).insert (toString arguments.length) v := by
  simp [argumentEntries, Entries.ofList, List.zipIdx_append]

/-- The keys of the array are the numbers of the arguments, counted from zero. -/
theorem Execution.get?_argumentEntries (arguments : List Value) (key : String) (v : Value) :
    (argumentEntries arguments).get? key = some v ↔
      ∃ i : Nat, key = toString i ∧ arguments[i]? = some v := by
  -- from the right: the last argument is the one that is inserted last
  induction hlength : arguments.length generalizing arguments with
  | zero =>
    cases List.eq_nil_of_length_eq_zero hlength
    constructor
    · intro h
      cases h
    · rintro ⟨i, -, h⟩
      cases h
  | succ n ih =>
    rcases List.eq_nil_or_concat arguments with rfl | ⟨rest, last, rfl⟩
    · cases hlength
    · have hrest : rest.length = n := by simpa using hlength
      rw [List.concat_eq_append, argumentEntries_concat, Entries.get?_insert, hrest]
      split
      · next hkey =>
        constructor
        · intro h
          cases h
          exact ⟨n, hkey, by simp [← hrest]⟩
        · rintro ⟨i, hi, hv⟩
          cases eq_of_toString_eq (hkey.symm.trans hi)
          simpa [← hrest] using hv
      · next hkey =>
        rw [ih rest hrest]
        constructor
        · rintro ⟨i, hi, hv⟩
          refine ⟨i, hi, ?_⟩
          rw [List.getElem?_append_left (List.getElem?_eq_some_iff.1 hv).1, hv]
        · rintro ⟨i, rfl, hv⟩
          have hne : i ≠ n := fun h => hkey (h ▸ rfl)
          have hlt := (List.getElem?_eq_some_iff.1 hv).1
          rw [List.length_append, List.length_singleton] at hlt
          exact ⟨i, rfl, by rwa [List.getElem?_append_left (by omega)] at hv⟩

/-- What is given to the instruction that asks for the arguments of the current frame as an array.
The frame was entered in the state `t` after the instructions in `before`; those in `since` were
executed since then. -/
structure State.GivesArray (u : State) (host : Host) (t : State)
    (before since : List (State × State)) (arguments : List Value) (ref : ArrayRef) (v : State) :
    Prop where
  step : ∀ nested, Execution.step host nested u = .ok .next v
  given : v.context.stack.back? = some (.array ref)
  /-- The container was made since the frame was entered. -/
  new : t.world.store.containers.size ≤ ref.index ∧ v.world.Has ref
  /-- It is made when it is first asked for, and holds the arguments. -/
  first : (∀ k ∈ since, k.1.context.fp = t.context.fp →
      ¬ k.1.context.nextIs .pushArgumentArray) →
    ref = u.fresh ∧
      (∀ key x, (v.world.store.entries ref).get? key = some x ↔
        ∃ i : Nat, key = toString i ∧ arguments[i]? = some x) ∧
      ∀ other, other ≠ ref → v.world.store.entries other = u.world.store.entries other
  /-- The frame has given no other container, and no other frame has given this one. -/
  own : ∀ k ∈ since, k.1.context.nextIs .pushArgumentArray →
    (k.2.context.stack.back? = some (.array ref) ↔ k.1.context.fp = t.context.fp)
  others : ∀ k ∈ before, k.1.context.nextIs .pushArgumentArray →
    k.2.context.stack.back? ≠ some (.array ref)

section Arrays

variable {root : Frame} {before since : List (State × State)} {fps fps' : List Nat}

/-- At the start of a macro the outermost frame keeps nothing. -/
theorem Ledger.start {p : ProgramRef} {limit : Nat} {target : Option DocumentHandle} {c : Context}
    (w : World) (h : Context.start p arguments limit target = .ok c) :
    ∃ root fps, root.returnTo = none ∧ Ledger root [] ⟨w, c⟩ fps := by
  obtain ⟨-, rfl⟩ := Context.start_eq_ok h
  have hunset : (withFrame arguments.toArray none none arguments.length
      p.program.locals.length)[arguments.length + 3]? = some .unset :=
    withFrame_slot arguments.toArray none none _ _ (i := 3) (by decide)
  have hnew : Frame.On False ⟨arguments.length + 4, arguments.length, none, none⟩
      (withFrame arguments.toArray none none arguments.length p.program.locals.length) :=
    Frame.on_withFrame none none (Nat.le_refl _) False.elim
  refine ⟨_, _, rfl, .root hnew, fun g hg ref hcaches => ?_, fun k hk => ?_⟩
  · cases List.mem_singleton.1 hg
    cases Eq.trans (Eq.symm hcaches) hunset
  · exact absurd hk List.not_mem_nil

/-- A container that was made since the frame was entered was not given before. -/
theorem Ledger.not_given {ref : ArrayRef} (h : Ledger root before t fps)
    (hnew : t.world.store.containers.size ≤ ref.index) (k : State × State) (hk : k ∈ before)
    (hnext : k.1.context.nextIs .pushArgumentArray) :
    k.2.context.stack.back? ≠ some (.array ref) := by
  intro hback
  obtain ⟨ref', hback', hhas⟩ := h.given k hk hnext
  cases Eq.trans (Eq.symm hback) hback'
  exact absurd hhas (Nat.not_lt.2 hnew)

/-- The array is given again. -/
theorem Tenure.gives_again {ref : ArrayRef} (h : Tenure root t since u fps)
    (hledger : Ledger root before t fps') (hframe : u.context.fp = t.context.fp)
    (hnext : u.context.nextIs .pushArgumentArray)
    (hroom : u.context.stack.size < u.context.limit) (hcaches : u.Caches t.context.fp ref) :
    ∃ v, u.GivesArray host t before since arguments ref v := by
  have hfour := h.chain.four_le _ h.chain.fp_mem
  have hcached : u.Caches u.context.fp ref := hframe ▸ hcaches
  obtain ⟨hmade, k, hk, hfp, hasked⟩ := h.made ref hcaches
  refine ⟨_, fun nested => (State.step_of_cached hnext (by omega) hcached).trans
    (Execution.push_next_of_room _ hroom), Array.back?_push, ⟨hmade, ?_⟩, ?_, ?_,
    hledger.not_given hmade⟩
  · exact h.exist _ h.live ref hcaches
  · intro hnone
    exact absurd hasked (hnone k hk hfp)
  · intro k hk hnext
    constructor
    · exact fun hback => (h.own k hk hnext ref hback).1 hcaches
    · intro hfp
      obtain ⟨ref', hback, -⟩ := h.given k hk hnext
      rw [hback, ((h.own k hk hnext ref' hback).2 hfp).unique hcaches]

/-- The array is made. -/
theorem Tenure.gives_first (h : Tenure root t since u fps)
    (hledger : Ledger root before t fps') (hframe : u.context.fp = t.context.fp)
    (hnext : u.context.nextIs .pushArgumentArray)
    (hroom : u.context.stack.size < u.context.limit)
    (hunset : u.context.stack[u.context.fp - 1]? = some .unset)
    (harguments : u.context.HasArguments arguments) :
    ∃ v, u.GivesArray host t before since arguments u.fresh v := by
  have hfour := h.chain.four_le _ h.chain.fp_mem
  have hnone : ∀ ref, ¬ u.Caches t.context.fp ref := by
    intro ref hcaches
    rw [← hframe] at hcaches
    cases Eq.trans (Eq.symm hcaches) hunset
  have hroom' : (u.context.stack.setIfInBounds (u.context.fp - 1) (.array u.fresh)).size <
      u.context.limit := by
    rw [Array.size_setIfInBounds]
    exact hroom
  refine ⟨_, fun nested => (State.step_of_uncached hnext (by omega) hunset harguments.list).trans
    (Execution.push_next_of_room _ hroom'), Array.back?_push, ⟨h.retained, ?_⟩, ?_, ?_,
    hledger.not_given h.retained⟩
  · exact Nat.le_of_eq (State.size_make u _).symm
  · refine fun _ => ⟨rfl, fun key x => ?_, fun other hne => ?_⟩
    · rw [← Execution.get?_argumentEntries arguments key x]
      exact iff_of_eq (congrArg (fun e => Entries.get? e key = some x)
        (Store.entries_alloc u.world.store _))
    · exact Store.entries_alloc_of_ne u.world.store _ hne
  · intro k hk hnext
    obtain ⟨ref, hback, hhas⟩ := h.given k hk hnext
    constructor
    · intro hback'
      cases Eq.trans (Eq.symm hback) hback'
      exact absurd hhas (Nat.lt_irrefl _)
    · exact fun hfp => absurd ((h.own k hk hnext ref hback).2 hfp) (hnone ref)

end Arrays

/-! ## The lifetime of a frame -/

/-- The ways to read the arguments of a frame agree as long as the frame lives.  The frame is
entered in the state `t` of a run from the start of a macro, and is the current one again in the
state `u`, after instructions that have not returned from it; all of them have found their operands
in their own frames.  Then its arguments are still read as what it was entered with.  If they are
asked for as an array, a container is given that was made for this frame: it is the one that the
frame has given before, and no other frame has given it.

The frame may not have more arguments than a signed 32-bit number can count; other frames may. -/
theorem Host.arguments_read_alike {w : World} {p : ProgramRef} {initial : List Value}
    {target : Option DocumentHandle} {c : Context} {before since : List (State × State)}
    (hhost : host.Retains)
    (hstart : Context.start p initial host.limits.stackSize target = .ok c)
    (hbefore : host.Trail Context.Orderly Host.OrderlyPause ⟨w, c⟩ before t)
    (hopens : host.Opens arguments t) (hfew : arguments.length < 2147483648)
    (hsince : host.Trail (Context.Within t.context.fp) Host.OrderlyPause t since u)
    (hframe : u.context.fp = t.context.fp) :
    u.ReadsArguments host arguments ∧
      (u.context.nextIs .pushArgumentArray → u.context.stack.size < u.context.limit →
        ∃ ref v, u.GivesArray host t before since arguments ref v) := by
  obtain ⟨root, fps, hroot, hfirst⟩ := Ledger.start w hstart
  obtain ⟨fps', hledger⟩ := hbefore.ledger hhost hroot hfirst
  obtain ⟨fps'', htenure⟩ := hsince.tenure hhost hroot (.start hledger hopens.unset)
  have harguments : u.context.HasArguments arguments :=
    (hopens.hasArguments hfew).agree hframe htenure.slots
  refine ⟨harguments.readsArguments htenure.chain.fp_le, fun hnext hroom => ?_⟩
  obtain ⟨f, hfp, hf⟩ := htenure.chain.newest
  have hcache := hf.cache
  rw [hfp] at hcache
  rcases hcache with hunset | ⟨ref, hcaches⟩
  · exact ⟨_, htenure.gives_first hledger hframe hnext hroom hunset harguments⟩
  · rw [hframe] at hcaches
    exact ⟨ref, htenure.gives_again hledger hframe hnext hroom hcaches⟩

namespace Sample

/-- A function that asks for its arguments twice. -/
def lister : ProgramRef :=
  ⟨1, ⟨#[.op .pushArgumentArray, .op .pushArgumentArray, .op .returnValue], []⟩⟩

/-- A macro that hands its arguments to the function, as one array. -/
def forwarder : ProgramRef :=
  ⟨0, ⟨#[.op .pushArgumentArray, .op .call, .symbol ⟨0⟩, .immediate 1, .op .fetchResult,
    .op .returnValue], []⟩⟩

/-- A host whose routines are scripts that do nothing. -/
def scriptedHost : Host :=
  ⟨⟨16, none⟩, fun self arguments => scriptRoutine self arguments .unset []⟩

/-- The world of the macro, with the arrays that were made and what was executed. -/
def forwardingWorld (containers : Array (Entries Value)) (dispatches : Array Dispatch) : World :=
  { World.ofSymbols ⟨#[⟨"list", .function, .program lister⟩], [⟨0⟩], [], 0, 0⟩ with
    store := ⟨containers⟩, dispatches }

/-- The macro at its start, with one argument. -/
def forwarding : State :=
  ⟨forwardingWorld #[] #[], ⟨#[.text "a", .address none, .frame none, .int 1, .unset], 16, 5,
    ⟨forwarder, 0⟩, none, none⟩⟩

/-- The macro about to call the function. -/
def forwardingCall : State :=
  ⟨forwardingWorld #[Execution.argumentEntries [.text "a"]] #[⟨.pushArgumentArray, 0, 5⟩],
    ⟨#[.text "a", .address none, .frame none, .int 1, .array ⟨0⟩, .array ⟨0⟩], 16, 5,
      ⟨forwarder, 1⟩, none, none⟩⟩

/-- The function at its beginning. -/
def listing : State :=
  ⟨forwardingWorld #[Execution.argumentEntries [.text "a"]]
      #[⟨.pushArgumentArray, 0, 5⟩, ⟨.call, 1, 6⟩],
    ⟨#[.text "a", .address none, .frame none, .int 1, .array ⟨0⟩, .array ⟨0⟩,
        .address (some ⟨forwarder, 4⟩), .frame (some 5), .int 1, .unset],
      16, 10, ⟨lister, 0⟩, none, none⟩⟩

/-- The function about to ask a second time. -/
def listingAgain : State :=
  ⟨forwardingWorld #[Execution.argumentEntries [.text "a"], Execution.argumentEntries [.array ⟨0⟩]]
      #[⟨.pushArgumentArray, 0, 5⟩, ⟨.call, 1, 6⟩, ⟨.pushArgumentArray, 0, 10⟩],
    ⟨#[.text "a", .address none, .frame none, .int 1, .array ⟨0⟩, .array ⟨0⟩,
        .address (some ⟨forwarder, 4⟩), .frame (some 5), .int 1, .array ⟨1⟩, .array ⟨1⟩],
      16, 10, ⟨lister, 1⟩, none, none⟩⟩

theorem forwarding_steps : scriptedHost.Steps forwarding .next forwardingCall :=
  ⟨0, rfl⟩

theorem forwardingCall_steps : scriptedHost.Steps forwardingCall .next listing :=
  ⟨0, rfl⟩

theorem listing_steps : scriptedHost.Steps listing .next listingAgain :=
  ⟨0, rfl⟩

end Sample

/-- The function gets its own container a second time, not that of the macro. -/
theorem Host.arguments_read_alike_when_forwarded :
    Sample.scriptedHost.Trail Context.Orderly Host.OrderlyPause Sample.forwarding
        [(Sample.forwardingCall, Sample.listing), (Sample.forwarding, Sample.forwardingCall)]
        Sample.listing ∧
      Sample.scriptedHost.Opens [.array ⟨0⟩] Sample.listing ∧
      Sample.scriptedHost.Trail (Context.Within 10) Host.OrderlyPause Sample.listing
        [(Sample.listing, Sample.listingAgain)] Sample.listingAgain ∧
      Sample.listingAgain.ReadsArguments Sample.scriptedHost [.array ⟨0⟩] ∧
      ∃ v, Sample.listingAgain.GivesArray Sample.scriptedHost Sample.listing
        [(Sample.forwardingCall, Sample.listing), (Sample.forwarding, Sample.forwardingCall)]
        [(Sample.listing, Sample.listingAgain)] [.array ⟨0⟩] ⟨1⟩ v := by
  have hbefore : Sample.scriptedHost.Trail Context.Orderly Host.OrderlyPause Sample.forwarding
      [(Sample.forwardingCall, Sample.listing), (Sample.forwarding, Sample.forwardingCall)]
      Sample.listing :=
    .step (.step .start (by decide) Sample.forwarding_steps (by decide)) (by decide)
      Sample.forwardingCall_steps (by decide)
  have hcalls : Sample.forwardingCall.CallsFunction ⟨0⟩ Sample.lister 1 :=
    ⟨rfl, rfl, ⟨1, rfl, rfl⟩, ⟨_, rfl, rfl, rfl⟩⟩
  have hstack : Sample.forwardingCall.context.stack =
      #[.text "a", .address none, .frame none, .int 1, .array ⟨0⟩] ++ [.array ⟨0⟩].toArray := rfl
  have hopens : Sample.scriptedHost.Opens [.array ⟨0⟩] Sample.listing :=
    .called hcalls hstack Sample.forwardingCall_steps
  have hsince : Sample.scriptedHost.Trail (Context.Within Sample.listing.context.fp)
      Host.OrderlyPause Sample.listing [(Sample.listing, Sample.listingAgain)]
      Sample.listingAgain :=
    .step .start ⟨by decide, by decide⟩ Sample.listing_steps (by decide)
  have hhost : Sample.scriptedHost.Retains :=
    fun self arguments w => scriptRoutine_retains self arguments .unset [] w
  have hstart : Context.start Sample.forwarder [.text "a"] Sample.scriptedHost.limits.stackSize
      none = .ok Sample.forwarding.context := rfl
  obtain ⟨hreads, hgives⟩ := Host.arguments_read_alike hhost hstart hbefore hopens
    (by decide) hsince rfl
  obtain ⟨ref, v, hgives⟩ := hgives rfl (by decide)
  have hsame : some (Value.array ⟨1⟩) = some (.array ref) :=
    (hgives.own _ List.mem_cons_self rfl).2 rfl
  cases hsame
  exact ⟨hbefore, hopens, hsince, hreads, v, hgives⟩

namespace Sample

/-- A macro that jumps over an instruction which would take a result, and asks for its arguments. -/
def skipper : ProgramRef :=
  ⟨0, ⟨#[.op .branch, .immediate 2, .op .fetchResult, .op .pushArgumentArray, .op .returnValue],
    []⟩⟩

/-- An array that does not come from arguments. -/
def strangeEntries : Entries Value :=
  Entries.ofList [("x", .int 1)]

/-- The macro at its start, with one argument. -/
def skipping : State :=
  ⟨forwardingWorld #[strangeEntries] #[],
    ⟨#[.int 7, .address none, .frame none, .int 1, .unset], 16, 5, ⟨skipper, 0⟩, none, none⟩⟩

/-- The macro after the jump, when there is nothing on the stack above its frame. -/
def skipped : State :=
  ⟨forwardingWorld #[strangeEntries] #[⟨.branch, 0, 5⟩],
    ⟨#[.int 7, .address none, .frame none, .int 1, .unset], 16, 5, ⟨skipper, 3⟩, none, none⟩⟩

theorem skipping_steps : scriptedHost.Steps skipping .next skipped :=
  ⟨0, rfl⟩

/-- The macro goes on after its missing result was replaced by the array. -/
def skippedReplaced : State :=
  ⟨skipped.world, skipped.context.replaceResult (.array ⟨0⟩)⟩

end Sample

/-- The ways to read arguments part in two cases.  A frame with 2147483648 arguments does not know
their number.  And where a result is replaced while the frame has nothing on the stack, the value
comes to lie in the slot for the array, and is given in place of the arguments. -/
theorem Host.arguments_misread :
    (Context.start Sample.countArguments Sample.crowd Sample.crowdedHost.limits.stackSize none =
        .ok (Sample.crowded Sample.crowd).context ∧
      (Sample.crowded Sample.crowd).context.nextIs .pushArgumentCount ∧
      (Sample.crowded Sample.crowd).context.stack.size <
        (Sample.crowded Sample.crowd).context.limit ∧
      ∃ t, Execution.step Sample.crowdedHost (fun _ _ => none) (Sample.crowded Sample.crowd) =
        .error (.fault (.malformed (.corruptSlot .argumentCount (.int (-2147483648))))) t) ∧
    (Context.start Sample.skipper [.int 7] Sample.scriptedHost.limits.stackSize none =
        .ok Sample.skipping.context ∧
      Sample.skipping.context.Orderly ∧
      Sample.scriptedHost.Steps Sample.skipping .next Sample.skipped ∧
      Sample.skippedReplaced.context.nextIs .pushArgumentArray ∧
      Sample.skippedReplaced.context.stack.size < Sample.skippedReplaced.context.limit ∧
      ∃ v, Sample.scriptedHost.Steps Sample.skippedReplaced .next v ∧
        v.context.stack.back? = some (.array ⟨0⟩) ∧
        (v.world.store.entries ⟨0⟩).get? "0" = none ∧
        (v.world.store.entries ⟨0⟩).get? "x" = some (.int 1)) := by
  refine ⟨⟨Sample.crowded_starts Sample.length_crowd, rfl, ?_, ?_⟩,
    rfl, by decide, Sample.skipping_steps, rfl, by decide, _, ⟨0, rfl⟩, rfl, rfl, rfl⟩
  · exact Sample.crowded_room Sample.length_crowd
  · obtain ⟨-, -, hfails⟩ := Sample.crowded_spoiled Sample.length_crowd
    exact hfails

end MacroMachine
