import MacroMachine.Proofs.Looking

/-!
# The bound on the stack

Code can take the bookkeeping of its own frame off the stack and put other values in its place, and
a call can claim slots of its caller's frame as arguments.  Nothing is assumed here about what code
does.  Three things hold of it all the same.

*The limit.*  A stack never grows beyond the limit that its macro was started with.  This is a
discipline of the stack alone (`limitDiscipline`).

*Arguments.*  A number of arguments that can be read lies two slots below the frame pointer, so the
stack reaches at least that far, and the arguments lie below (`Context.arguments_of_count`).

*Returns.*  For the same reason a return takes at least three slots off the stack, whatever the
number says, and there is room for a result (`Context.popFrame_room`).
-/

namespace MacroMachine

/-! ## The limit -/

/-- The stack of the context is within the limit that its macro was started with. -/
def Context.Fits (bound : Nat) (c : Context) : Prop :=
  Bounded bound c.stack c.limit

/-- While a macro lies suspended, anything may happen to the world, and the result of the call that
it has come back from may be replaced. -/
def Host.AnyPause (s t : State) : Prop :=
  t.context = s.context ∨ ∃ v, t.context = s.context.replaceResult v

section Runs

variable {host : Host} {bound : Nat} {s t : State}

theorem Context.fits_start {p : ProgramRef} {arguments : List Value} {limit : Nat}
    {target : Option DocumentHandle} {c : Context}
    (h : start p arguments limit target = .ok c) : c.Fits limit := by
  obtain ⟨hlimit, rfl⟩ := start_eq_ok h
  have harguments : Bounded limit arguments.toArray limit := by
    refine ⟨rfl, ?_⟩
    rw [List.size_toArray]
    omega
  exact harguments.withFrame none none _ (by rwa [List.size_toArray])

theorem Context.Fits.shrunk {c c' : Context} (h : c.Fits bound) (hlimit : c'.limit = c.limit)
    (hsize : c'.stack.size ≤ c.stack.size) : c'.Fits bound :=
  ⟨hlimit.trans h.limit_eq, hlimit ▸ Nat.le_trans hsize h.fits⟩

theorem Context.Fits.replaceResult {c : Context} (h : c.Fits bound) (v : Value) :
    (c.replaceResult v).Fits bound := by
  unfold Context.replaceResult
  split
  · exact h.of_size Array.size_setIfInBounds
  · exact h

theorem Host.AnyPause.fits (h : Host.AnyPause s t) (hs : s.context.Fits bound) :
    t.context.Fits bound := by
  rcases h with heq | ⟨v, heq⟩
  · rw [heq]
    exact hs
  · rw [heq]
    exact hs.replaceResult v

/-- A run keeps the stack within its limit. -/
theorem Context.Fits.runs (h : s.context.Fits bound)
    (hrun : host.Runs (fun _ => True) Host.AnyPause s t) : t.context.Fits bound := by
  have hfree := limitDiscipline_free bound
  have hready := (hfree.ready h).runs (hfree.keeps host)
    (fun fuel => hfree.answers (host.resume fuel)) ?_ ?_ hrun
  · exact hready.sound.frames
  · intro u hu _
    exact ⟨hu, fun hframed => hframed.elim, fun hcounted => hcounted.elim, fun _ => trivial⟩
  · intro u v hu hpause
    exact hfree.ready (hpause.fits hu.sound.frames)

/-- A macro that a slice leaves suspended has come there by a run. -/
theorem Host.runs_of_preempted {fuel executed : Nat} {w w' : World} {c c' : Context}
    {reason : PreemptReason} (meanwhile : State → State → Prop)
    (h : host.runSlice fuel executed w c = some (.preempted c' reason, w')) :
    host.Runs (fun _ => True) meanwhile ⟨w, c⟩ ⟨w', c'⟩ := by
  induction fuel generalizing executed w c with
  | zero => cases h
  | succ fuel ih =>
    rw [runSlice] at h
    split at h
    · next s hstep =>
      split at h
      · cases h
        exact .step .start trivial ⟨fuel, hstep⟩ (by decide)
      · exact (ih h).after_step trivial ⟨fuel, hstep⟩ (by decide)
    · next s hstep =>
      cases h
      exact .step .start trivial ⟨fuel, hstep⟩ (by decide)
    · split at h <;> cases h
    · cases h
    · cases h

end Runs

/-! ## Arguments -/

namespace Context

variable {c c' : Context} {count : Nat}

/-- Where a number of arguments can be read, the stack reaches up to it. -/
theorem lt_size_of_argumentCount (h : c.argumentCount = .ok count) : c.fp - 2 < c.stack.size := by
  obtain ⟨n, hslot, -⟩ := argumentCount_eq_ok h
  exact (Array.getElem?_eq_some_iff.1 hslot).1

/-- The arguments are a part of the stack if they do not reach below its bottom. -/
theorem arguments_of_count (h : c.argumentCount = .ok count) :
    c.fp < 4 + count ∧ c.arguments = .error (.malformed .frameBelowStack) ∨
      4 + count ≤ c.fp ∧ c.fp - 4 ≤ c.stack.size ∧
        ∃ values, c.arguments = .ok values ∧ values.length = count ∧
          ∀ i < count, values[i]? = c.stack[c.fp - (4 + count) + i]? := by
  have hsize := lt_size_of_argumentCount h
  by_cases hfp : 4 + count ≤ c.fp
  · have hvalues : c.arguments = .ok (c.stack.extract (c.fp - (4 + count)) (c.fp - 4)).toList := by
      simp only [arguments, h, if_pos hfp]
    refine .inr ⟨hfp, by omega, _, hvalues, ?_, fun i hi => ?_⟩
    · rw [Array.length_toList, Array.size_extract]
      omega
    · rw [Array.getElem?_toList, Array.getElem?_extract, if_pos (by omega)]
  · refine .inl ⟨by omega, ?_⟩
    simp only [arguments, h, if_neg hfp]

/-! ## Returns -/

/-- Leaving a frame takes at least three slots off the stack. -/
theorem popFrame_room {returnTo : Option CodeAddress} (h : popFrame c = .ok returnTo c') :
    c'.limit = c.limit ∧ c'.stack.size + 3 ≤ c.stack.size := by
  obtain ⟨caller, n, -, -, hcount, -, hfp, rfl⟩ := popFrame_eq_ok h
  have hlt := (Array.getElem?_eq_some_iff.1 hcount).1
  refine ⟨rfl, ?_⟩
  rw [Array.size_extract]
  omega

end Context

section Returns

variable {host : Host} {nested : Runner} {s t : State} {w : World} {c c' : Context}

theorem leave_of_error {e : Fault} (value : Option Value) (h : Context.popFrame c = .error e c') :
    Execution.leave value ⟨w, c⟩ = .error (.fault e) ⟨w, c'⟩ :=
  Execution.bind_of_error (Execution.transition_of_error h)

/-- The outermost frame leaves its value on the stack. -/
theorem leave_of_outermost (value : Option Value) (h : Context.popFrame c = .ok none c')
    (hfits : c.stack.size ≤ c.limit) : Execution.leave value ⟨w, c⟩ =
      .ok .done ⟨w, { c' with stack := c'.stack.push (value.getD .unset) }⟩ := by
  obtain ⟨hlimit, hroom⟩ := Context.popFrame_room h
  have hpush : Context.push (value.getD .unset) c' =
      .ok () { c' with stack := c'.stack.push (value.getD .unset) } := by
    simp only [Context.push, if_neg (show ¬ c'.limit ≤ c'.stack.size by omega)]
  unfold Execution.leave
  rw [Execution.bind_of_ok (Execution.transition_of_ok h)]
  exact Execution.bind_of_ok (Execution.transition_of_ok hpush)

/-- A frame can be left as far as the stack is concerned. -/
theorem leave_ne_stackOverflow (value : Option Value) (hfits : c.stack.size ≤ c.limit) :
    Execution.leave value ⟨w, c⟩ ≠ .error (.fault .stackOverflow) t := by
  intro hleave
  cases hpop : Context.popFrame c with
  | error e c' =>
    rw [leave_of_error value hpop] at hleave
    cases hleave
    exact Context.popFrame_fault hpop
  | ok returnTo c' =>
    obtain ⟨hlimit, hroom⟩ := Context.popFrame_room hpop
    cases returnTo with
    | none =>
      rw [leave_of_outermost value hpop hfits] at hleave
      cases hleave
    | some back =>
      rw [leave_of_inner value hpop] at hleave
      cases hmarker : c'.nextIs .fetchResult with
      | false =>
        rw [Execution.bind_of_ok (handOver_of_unmarked value hmarker)] at hleave
        cases hleave
      | true =>
        cases value with
        | some v =>
          rw [Execution.bind_of_ok (handOver_of_marked v hmarker (by omega))] at hleave
          cases hleave
        | none =>
          rw [Execution.bind_of_error (handOver_of_missing hmarker)] at hleave
          cases hleave

/-- The value that a return as the next instruction delivers; none if the stack has none. -/
def Context.result? (c : Context) : Option Value :=
  if c.nextIs .returnValue then c.stack.back? else some .unset

/-- A return takes its value off the stack, if it has one, and leaves the frame. -/
theorem Context.Returns.step_cases (host : Host) (nested : Runner) (h : s.context.Returns) :
    (∃ t, Execution.step host nested s = .error (.fault .stackUnderflow) t) ∨
      ∃ value w c, Execution.step host nested s = Execution.leave value ⟨w, c⟩ ∧
        c.limit = s.context.limit ∧ c.stack.size ≤ s.context.stack.size ∧
        s.context.result? = some (value.getD .unset) := by
  unfold Context.result?
  cases hvalue : s.context.nextIs .returnValue with
  | false =>
    obtain ⟨pc, heq⟩ := h.step_eq hvalue
    exact .inr ⟨none, _, _, heq, rfl, Nat.le_refl _, rfl⟩
  | true =>
    cases hback : s.context.stack.back? with
    | some v =>
      refine .inr ⟨some v, _, _, Context.step_of_returnValue hvalue hback, rfl, ?_, rfl⟩
      rw [Array.size_pop]
      exact Nat.sub_le _ _
    | none =>
      have hpop : Context.pop { s.context with pc := s.context.pc.advance 1 } =
          .error .stackUnderflow { s.context with pc := s.context.pc.advance 1 } := by
        simp only [Context.pop, hback]
      refine .inl ⟨⟨Execution.recorded .returnValue s,
        { s.context with pc := s.context.pc.advance 1 }⟩, ?_⟩
      rw [Execution.step_of_opcode (Effects.nextIs_iff.1 hvalue)]
      exact Execution.bind_of_error (Execution.transition_of_error hpop)

/-! ## The end of a macro -/

/-- The execution does not end its macro. -/
def GoesOn (x : Execution Outcome) : Prop :=
  ∀ s t, x s ≠ .ok .done t

namespace GoesOn

theorem pure {outcome : Outcome} (h : outcome ≠ .done) : GoesOn (Pure.pure outcome) := by
  intro s t heq
  cases heq
  exact h rfl

theorem raise (e : Fault) : GoesOn (Execution.raise e) :=
  fun _ _ heq => by cases heq

theorem bind {α : Type} (x : Execution α) {f : α → Execution Outcome} (h : ∀ a, GoesOn (f a)) :
    GoesOn (x >>= f) := by
  intro s u heq
  obtain ⟨a, t, -, hrest⟩ := Execution.bind_eq_ok heq
  exact h a t u hrest

theorem call (invoke : Execution.Caller) : GoesOn (Execution.call invoke) := by
  refine .bind _ fun id => .bind _ fun count => .bind _ fun symbol => ?_
  split
  · refine .bind _ fun arguments => .bind _ fun result => .bind _ fun _ => .pure ?_
    split <;> decide
  · exact .bind _ fun _ => .pure (by decide)
  · exact .raise _

theorem pushSymbol (invoke : Execution.Caller) : GoesOn (Execution.pushSymbol invoke) := by
  refine .bind _ fun id => .bind _ fun value => ?_
  split
  · exact .bind _ fun _ => .raise _
  · exact .bind _ fun _ => .pure (by decide)

end GoesOn

/-- Only a return ends a macro. -/
theorem returns_of_done (h : Execution.step host nested s = .ok .done t) : s.context.Returns := by
  by_cases hinvokes : s.Invokes
  · obtain ⟨id, symbol, routine, -, -, -, ⟨hnext, -⟩ | ⟨hnext, -⟩⟩ := hinvokes
    · rw [Execution.step_of_opcode (Effects.nextIs_iff.1 hnext)] at h
      exact absurd h (GoesOn.call _ _ _)
    · rw [Execution.step_of_opcode (Effects.nextIs_iff.1 hnext)] at h
      exact absurd h (GoesOn.pushSymbol _ _ _)
  · cases becomes_of_step h hinvokes with
    | ends hreturns _ => exact hreturns

/-- A macro that is over has its value on top of the stack. -/
theorem back?_of_leave {value : Option Value} (hfits : c.stack.size ≤ c.limit)
    (h : Execution.leave value ⟨w, c⟩ = .ok .done t) :
    t.context.stack.back? = some (value.getD .unset) ∧ t.context.stack.size ≤ c.stack.size := by
  cases hpop : Context.popFrame c with
  | error e c' =>
    rw [leave_of_error value hpop] at h
    cases h
  | ok returnTo c' =>
    obtain ⟨-, hroom⟩ := Context.popFrame_room hpop
    cases returnTo with
    | none =>
      rw [leave_of_outermost value hpop hfits] at h
      cases h
      refine ⟨Array.back?_push, ?_⟩
      rw [Array.size_push]
      omega
    | some back =>
      rw [leave_of_inner value hpop] at h
      exact absurd h (GoesOn.bind _ (fun _ => .pure (by decide)) _ _)

/-- A step that ends its macro is a return and leaves its value on top of the stack. -/
theorem Context.Fits.done {bound : Nat} (h : s.context.Fits bound)
    (hstep : Execution.step host nested s = .ok .done t) :
    s.context.Returns ∧ t.context.stack.size ≤ bound ∧
      ∃ v, s.context.result? = some v ∧ t.context.stack.back? = some v := by
  have hreturns := returns_of_done hstep
  refine ⟨hreturns, ?_⟩
  rcases hreturns.step_cases host nested with ⟨_, heq⟩ | ⟨value, w, c, heq, hlimit, hsize, hvalue⟩
  · rw [heq] at hstep
    cases hstep
  · rw [heq] at hstep
    obtain ⟨hback, hsize'⟩ := back?_of_leave (h.shrunk hlimit hsize).fits hstep
    refine ⟨?_, _, hvalue, hback⟩
    calc t.context.stack.size
      _ ≤ c.stack.size := hsize'
      _ ≤ s.context.stack.size := hsize
      _ ≤ s.context.limit := h.fits
      _ = bound := h.limit_eq

/-- A return does not overflow the stack. -/
theorem Context.Fits.ne_stackOverflow {bound : Nat} (h : s.context.Fits bound)
    (hreturns : s.context.Returns) :
    Execution.step host nested s ≠ .error (.fault .stackOverflow) t := by
  intro hstep
  rcases hreturns.step_cases host nested with ⟨_, heq⟩ | ⟨value, w, c, heq, hlimit, hsize, -⟩
  · rw [heq] at hstep
    cases hstep
  · rw [heq] at hstep
    exact leave_ne_stackOverflow value (h.shrunk hlimit hsize).fits hstep

end Returns

/-- A slice whose last step ends the macro answers with the value on top of the stack. -/
theorem Host.runSlice_of_done {host : Host} {fuel executed : Nat} {s t : State} {v : Value}
    (hstep : Execution.step host (host.resume fuel) s = .ok .done t)
    (hback : t.context.stack.back? = some v) :
    host.runSlice (fuel + 1) executed s.world s.context = some (.done v, t.world) := by
  have hlast : Execution.step host (host.runSlice fuel 0) ⟨s.world, s.context⟩ = .ok .done t :=
    hstep
  rw [runSlice, hlast]
  simp only [Context.pop, hback]

namespace Sample

/-- A macro that takes the number of its arguments off the stack and puts another one there. -/
def forger : ProgramRef :=
  ⟨0, ⟨#[.op .assign, .symbol ⟨0⟩, .op .assign, .symbol ⟨0⟩, .op .pushSymbol, .symbol ⟨1⟩,
    .op .returnNothing], []⟩⟩

/-- The macro at a position of its code, on a stack that was full when it started. -/
def forging (kept : Value) (dispatches : Array Dispatch) (stack : Array Value) (position : Nat) :
    State :=
  let symbols := #[⟨"kept", .global, kept⟩, ⟨"forged", .constant, .int 0⟩]
  ⟨{ World.ofSymbols ⟨symbols, [⟨1⟩, ⟨0⟩], [], 0, 0⟩ with dispatches },
    ⟨stack, 5, 5, ⟨forger, position⟩, none, none⟩⟩

/-- The macro at its start, with one argument. -/
def forgerStarted : State :=
  forging .unset #[] #[.text "a", .address none, .frame none, .int 1, .unset] 0

/-- The macro about to return over the number that it has made up. -/
def forged : State :=
  forging (.int 1) #[⟨.assign, 0, 5⟩, ⟨.assign, 2, 4⟩, ⟨.pushSymbol, 4, 3⟩]
    #[.text "a", .address none, .frame none, .int 0] 6

theorem forgerStarted_runs : host.Runs (fun _ => True) Host.AnyPause forgerStarted forged := by
  have hcache : host.Steps forgerStarted .next (forging .unset #[⟨.assign, 0, 5⟩]
      #[.text "a", .address none, .frame none, .int 1] 2) := ⟨0, rfl⟩
  have hcount : host.Steps (forging .unset #[⟨.assign, 0, 5⟩]
      #[.text "a", .address none, .frame none, .int 1] 2) .next (forging (.int 1)
      #[⟨.assign, 0, 5⟩, ⟨.assign, 2, 4⟩] #[.text "a", .address none, .frame none] 4) := ⟨0, rfl⟩
  have hforged : host.Steps (forging (.int 1) #[⟨.assign, 0, 5⟩, ⟨.assign, 2, 4⟩]
      #[.text "a", .address none, .frame none] 4) .next forged := ⟨0, rfl⟩
  exact .step (.step (.step .start trivial hcache (by decide)) trivial hcount (by decide)) trivial
    hforged (by decide)

end Sample

/-- The stack stays bounded and results are delivered, whatever the code is and whatever it does to
the bookkeeping of frames.  From the start of a macro with any limit, take any run.

The stack is within the limit, and so it is in a context that a slice leaves suspended.  Wherever a
number of arguments can be read, in the middle of an instruction too, the arguments are a part of
the stack or reach below its bottom, which is a fault.  A return does not overflow the stack.  A
step that ends the macro is a return, and the value that it returns, which is unset if there is
none, is on top of the stack; the slice therefore answers with that value. -/
theorem Host.stack_stays_bounded {host : Host} {w : World} {p : ProgramRef} {limit : Nat}
    {arguments : List Value} {target : Option DocumentHandle} {c : Context} {s : State}
    (hstart : Context.start p arguments limit target = .ok c)
    (hrun : host.Runs (fun _ => True) Host.AnyPause ⟨w, c⟩ s) :
    (s.context.limit = limit ∧ s.context.stack.size ≤ limit) ∧
    (∀ fuel executed c' reason w',
      host.runSlice fuel executed s.world s.context = some (.preempted c' reason, w') →
        c'.limit = limit ∧ c'.stack.size ≤ limit) ∧
    (∀ (c : Context) (count : Nat), c.argumentCount = .ok count →
      c.fp < 4 + count ∧ c.arguments = .error (.malformed .frameBelowStack) ∨
        4 + count ≤ c.fp ∧ c.fp - 4 ≤ c.stack.size ∧
          ∃ values, c.arguments = .ok values ∧ values.length = count ∧
            ∀ i < count, values[i]? = c.stack[c.fp - (4 + count) + i]?) ∧
    (s.context.Returns → ∀ nested t,
      Execution.step host nested s ≠ .error (.fault .stackOverflow) t) ∧
    (∀ nested t, Execution.step host nested s = .ok .done t →
      s.context.Returns ∧ t.context.stack.size ≤ limit ∧
        ∃ v, s.context.result? = some v ∧ t.context.stack.back? = some v) ∧
    ∀ fuel executed t, Execution.step host (host.resume fuel) s = .ok .done t →
      ∃ v, s.context.result? = some v ∧
        host.runSlice (fuel + 1) executed s.world s.context = some (.done v, t.world) := by
  have hfits : s.context.Fits limit := Context.Fits.runs (Context.fits_start hstart) hrun
  refine ⟨⟨hfits.limit_eq, hfits.limit_eq ▸ hfits.fits⟩, ?_,
    fun c count => Context.arguments_of_count,
    fun hreturns nested t => hfits.ne_stackOverflow hreturns, fun nested t => hfits.done, ?_⟩
  · intro fuel executed c' reason w' hslice
    have hfits' := hfits.runs (Host.runs_of_preempted Host.AnyPause hslice)
    exact ⟨hfits'.limit_eq, hfits'.limit_eq ▸ hfits'.fits⟩
  · intro fuel executed t hstep
    obtain ⟨-, -, v, hvalue, hback⟩ := hfits.done hstep
    exact ⟨v, hvalue, Host.runSlice_of_done hstep hback⟩

/-- A return over a number of arguments that the macro has made up leaves the argument behind, and
the value on top of it. -/
theorem Host.stack_stays_bounded_over_forged_frame :
    Context.start Sample.forger [.text "a"] 5 none = .ok Sample.forgerStarted.context ∧
      Sample.host.Runs (fun _ => True) Host.AnyPause Sample.forgerStarted Sample.forged ∧
      Sample.forged.context.stack.size ≤ 5 ∧
      ∃ t, Execution.step Sample.host (Sample.host.resume 0) Sample.forged = .ok .done t ∧
        t.context.stack = #[.text "a", .unset] ∧
        Sample.host.runSlice 1 0 Sample.forged.world Sample.forged.context =
          some (.done .unset, t.world) := by
  have hstart : Context.start Sample.forger [.text "a"] 5 none =
      .ok Sample.forgerStarted.context := rfl
  obtain ⟨⟨-, hsize⟩, -, -, -, -, hdone⟩ :=
    Host.stack_stays_bounded hstart Sample.forgerStarted_runs
  obtain ⟨v, hvalue, hslice⟩ := hdone 0 0 _ rfl
  cases hvalue
  exact ⟨hstart, Sample.forgerStarted_runs, hsize, _, rfl, rfl, hslice⟩

end MacroMachine
