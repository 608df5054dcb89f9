import MacroMachine.Proofs.Frames

/-!
# Calls and returns are balanced

A call of a function lays a frame over its arguments.  Whatever the function does within that frame,
its return takes the frame and the arguments away again, and the caller finds its stack as it was.
The value of the function is added if the code after the call asks for it with a marker.

The frame of the call is the root of the chain of frames while the function runs (`Chained`), so the
return finds the bookkeeping of the frame as the call has left it, and below the arguments nothing
has changed.
-/

namespace MacroMachine

variable {host : Host} {nested : Runner} {s t u : State} {id : SymbolId} {p : ProgramRef}
  {count : Nat} {outcome : Outcome}

/-- The frame that a call makes. -/
def State.callFrame (s : State) (count : Nat) : Frame :=
  ⟨s.context.stack.size + 4, count, some s.backAddress, some s.context.fp⟩

theorem State.base_callFrame (s : State) (count : Nat) :
    (s.callFrame count).base = s.context.stack.size - count := by
  simp only [Frame.base, State.callFrame]
  omega

/-- After a call the new frame is the root of a chain, and below its arguments nothing has
changed. -/
theorem State.CallsFunction.chained (h : s.CallsFunction id p count)
    (hstep : Execution.step host nested s = .ok outcome t) :
    t.context.fp = (s.callFrame count).fp ∧
      Chained False (s.callFrame count) s.context.stack t.context.limit t.context.stack
        t.context.limit t.context.fp := by
  rw [h.step_eq, Context.enter] at hstep
  rcases Context.pushFrame_cases (some s.backAddress) (some s.context.fp) count p
    { s.context with pc := s.backAddress } with ⟨hcount, hlimit, heq⟩ | ⟨e, -, heq⟩
  · rw [heq] at hstep
    cases hstep
    have hon : (s.callFrame count).On False (withFrame s.context.stack (some s.backAddress)
        (some s.context.fp) count p.program.locals.length) :=
      Frame.on_withFrame _ _ hcount False.elim
    refine ⟨rfl, rfl, ?_, ?_, ?_⟩
    · rw [size_withFrame, Nat.add_assoc]
      exact hlimit
    · exact ⟨_, .root hon⟩
    · intro i hi
      rw [State.base_callFrame] at hi
      exact withFrame_below _ _ _ _ (Nat.lt_of_lt_of_le hi (Nat.sub_le _ _))
  · rw [heq] at hstep
    cases hstep

/-! ## Returns -/

theorem extract_congr {xs ys : Array Value} {n : Nat} (h : ∀ i < n, xs[i]? = ys[i]?) :
    xs.extract 0 n = ys.extract 0 n := by
  apply Array.ext_getElem?
  intro i
  by_cases hi : i < n
  · rw [extract_below hi, extract_below hi]
    exact h i hi
  · rw [Array.getElem?_eq_none, Array.getElem?_eq_none]
    · rw [Array.size_extract]
      omega
    · rw [Array.size_extract]
      omega

section Returns

variable {counted : Prop} {root : Frame} {old : Array Value} {bound : Nat} {w : World} {c : Context}

/-- Leaving the root uncovers what lay below its arguments, if they can be counted. -/
theorem Chained.popFrame (h : Chained counted root old bound c.stack c.limit c.fp)
    (hfp : c.fp = root.fp) (hfew : root.count < 2147483648) :
    Context.popFrame c = .ok root.returnTo { c with
      stack := old.extract 0 root.base
      fp := root.caller.getD 0
      pc := root.returnTo.getD c.pc } := by
  obtain ⟨fps, hchain⟩ := h.chain
  have hroot := hchain.rootOn
  obtain ⟨hn, hnat⟩ := toInt_ofNat_of_few hfew
  have hroom : 4 + (Int32.ofNat root.count).toInt.toNat ≤ c.fp := by
    rw [hnat, hfp]
    exact hroot.room
  have hslots := Context.popFrame_of_slots (hfp ▸ hroot.address) (hfp ▸ hroot.frame)
    (hfp ▸ hroot.count) hn hroom
  have hsize : c.fp - (4 + (Int32.ofNat root.count).toInt.toNat) = root.base := by
    rw [hnat, hfp]
    rfl
  rw [hslots, hsize, extract_congr h.below]

/-- The caller has room for a result. -/
theorem Chained.room (h : Chained counted root old bound c.stack c.limit c.fp) :
    (old.extract 0 root.base).size < c.limit := by
  obtain ⟨fps, hchain⟩ := h.chain
  have hbase := hchain.rootOn.base_le
  have hsize := hchain.rootOn.size
  have hfits := h.fits
  rw [Array.size_extract]
  omega

/-- A frame that is not the outermost one is left for its caller. -/
theorem leave_of_inner {back : CodeAddress} {c' : Context} (value : Option Value)
    (h : Context.popFrame c = .ok (some back) c') : Execution.leave value ⟨w, c⟩ =
      (Execution.handOver value >>= fun _ => pure .next) ⟨w, c'⟩ :=
  Execution.bind_of_ok (Execution.transition_of_ok h)

/-- The context back in the caller of the root, before a marker is seen to. -/
def Frame.caughtUp (root : Frame) (old : Array Value) (back : CodeAddress) (c : Context) :
    Context :=
  { c with stack := old.extract 0 root.base, fp := root.caller.getD 0, pc := back }

/-- A return from the root goes on in its caller. -/
theorem Chained.leave_eq {back : CodeAddress} (value : Option Value)
    (h : Chained counted root old bound c.stack c.limit c.fp) (hfp : c.fp = root.fp)
    (hfew : root.count < 2147483648) (hreturn : root.returnTo = some back) :
    Execution.leave value ⟨w, c⟩ =
      (Execution.handOver value >>= fun _ => pure .next) ⟨w, root.caughtUp old back c⟩ := by
  have hpop := h.popFrame hfp hfew
  rw [hreturn] at hpop
  exact leave_of_inner value hpop

theorem handOver_of_unmarked (value : Option Value) (h : c.nextIs .fetchResult = false) :
    Execution.handOver value ⟨w, c⟩ = .ok () ⟨w, c⟩ := by
  have hcontext : Execution.context ⟨w, c⟩ = .ok c ⟨w, c⟩ := rfl
  unfold Execution.handOver
  rw [Execution.bind_of_ok hcontext, h]
  rfl

theorem handOver_of_marked (v : Value) (h : c.nextIs .fetchResult = true)
    (hroom : c.stack.size < c.limit) : Execution.handOver (some v) ⟨w, c⟩ =
      .ok () ⟨w, { c with stack := c.stack.push v, pc := c.pc.advance 1 }⟩ := by
  have hcontext : Execution.context ⟨w, c⟩ = .ok c ⟨w, c⟩ := rfl
  have hpush : Context.push v c = .ok () { c with stack := c.stack.push v } := by
    simp only [Context.push, if_neg (Nat.not_le.2 hroom)]
  unfold Execution.handOver
  rw [Execution.bind_of_ok hcontext, h]
  exact Execution.bind_of_ok (Execution.transition_of_ok hpush)

theorem handOver_of_missing (h : c.nextIs .fetchResult = true) : Execution.handOver none ⟨w, c⟩ =
    .error (.fault (.missingResult (Execution.callee w.symbols c))) ⟨w, c⟩ := by
  have hcontext : Execution.context ⟨w, c⟩ = .ok c ⟨w, c⟩ := rfl
  unfold Execution.handOver
  rw [Execution.bind_of_ok hcontext, h]
  rfl

/-- The context is back at the call of `s`.  The stack is the caller's without the arguments; if a
value is delivered, it lies on top and the marker after the call is passed. -/
structure Context.BackAt (s : State) (count : Nat) (delivered : Option Value) (c : Context) :
    Prop where
  stack : c.stack = s.context.stack.extract 0 (s.context.stack.size - count) ++
    delivered.toArray
  fp : c.fp = s.context.fp
  pc : c.pc = if delivered.isSome then s.backAddress.advance 1 else s.backAddress

/-- Leaving the frame of a call without a marker leads back to it and drops the value. -/
theorem Chained.leave_unmarked (c : Context) (value : Option Value)
    (h : Chained counted (s.callFrame count) s.context.stack bound c.stack c.limit c.fp)
    (hfp : c.fp = (s.callFrame count).fp) (hfew : count < 2147483648)
    (hmarker : s.backAddress.slot? ≠ some (.op .fetchResult)) :
    ∃ u, Execution.leave value ⟨w, c⟩ = .ok .next u ∧ u.context.BackAt s count none := by
  have hnext : Context.nextIs .fetchResult
      ((s.callFrame count).caughtUp s.context.stack s.backAddress c) = false := by
    simp only [Context.nextIs, Frame.caughtUp, beq_eq_false_iff_ne]
    exact hmarker
  rw [h.leave_eq value hfp hfew rfl, Execution.bind_of_ok (handOver_of_unmarked value hnext)]
  refine ⟨_, rfl, ?_, rfl, rfl⟩
  rw [← State.base_callFrame]
  exact Array.append_empty.symm

/-- Leaving the frame of a call with a marker delivers the value. -/
theorem Chained.leave_marked (c : Context) (v : Value)
    (h : Chained counted (s.callFrame count) s.context.stack bound c.stack c.limit c.fp)
    (hfp : c.fp = (s.callFrame count).fp) (hfew : count < 2147483648)
    (hmarker : s.backAddress.slot? = some (.op .fetchResult)) :
    ∃ u, Execution.leave (some v) ⟨w, c⟩ = .ok .next u ∧ u.context.BackAt s count (some v) := by
  have hnext : Context.nextIs .fetchResult
      ((s.callFrame count).caughtUp s.context.stack s.backAddress c) = true := by
    simp only [Context.nextIs, Frame.caughtUp, hmarker, beq_self_eq_true]
  rw [h.leave_eq (some v) hfp hfew rfl, Execution.bind_of_ok (handOver_of_marked v hnext h.room)]
  refine ⟨_, rfl, ?_, rfl, rfl⟩
  rw [← State.base_callFrame]
  exact Array.push_eq_append

/-- Leaving the frame of a call with a marker and without a value is a fault of whatever the call
names. -/
theorem Chained.leave_without_value (hname : (s.context.pc.advance 1).slot? = some (.symbol id))
    (h : Chained counted (s.callFrame count) s.context.stack bound c.stack c.limit c.fp)
    (hfp : c.fp = (s.callFrame count).fp) (hfew : count < 2147483648)
    (hmarker : s.backAddress.slot? = some (.op .fetchResult)) :
    ∃ u, Execution.leave none ⟨w, c⟩ = .error (.fault (.missingResult (w.symbols.name id))) u := by
  have hnext : Context.nextIs .fetchResult
      ((s.callFrame count).caughtUp s.context.stack s.backAddress c) = true := by
    simp only [Context.nextIs, Frame.caughtUp, hmarker, beq_self_eq_true]
  have hbefore : s.backAddress.slotBefore? 2 = some (.symbol id) := by
    have hle : 2 ≤ s.backAddress.index := by
      show 2 ≤ s.context.pc.index + 3
      omega
    rw [CodeAddress.slotBefore?, if_pos hle]
    exact hname
  have hcallee : Execution.callee w.symbols
      ((s.callFrame count).caughtUp s.context.stack s.backAddress c) = w.symbols.name id := by
    simp only [Execution.callee, Frame.caughtUp, hbefore]
  rw [h.leave_eq none hfp hfew rfl, Execution.bind_of_error (handOver_of_missing hnext), hcallee]
  exact ⟨_, rfl⟩

/-- Leaving the frame of a call with a marker and without a value is a fault of the function that
was called. -/
theorem Chained.leave_missing (hcall : s.CallsFunction id p count)
    (h : Chained counted (s.callFrame count) s.context.stack bound c.stack c.limit c.fp)
    (hfp : c.fp = (s.callFrame count).fp) (hfew : count < 2147483648)
    (hmarker : s.backAddress.slot? = some (.op .fetchResult)) :
    ∃ u, Execution.leave none ⟨w, c⟩ = .error (.fault (.missingResult (w.symbols.name id))) u :=
  h.leave_without_value hcall.name hfp hfew hmarker

end Returns

/-! ## Balance -/

/-- The next instruction finds its operands in the current frame and does not leave the frame at
`fp`. -/
structure Context.Within (fp : Nat) (c : Context) : Prop where
  orderly : c.Orderly
  stays : c.Returns → c.fp ≠ fp

/-- What returns a value takes it off the stack. -/
theorem Context.Orderly.pop {c : Context} (h : c.Orderly) (hreturn : c.nextIs .returnValue = true) :
    ∃ v, c.stack.back? = some v ∧ c.fp + 1 ≤ c.stack.size := by
  have hslot : c.pc.slot? = some (.op .returnValue) := by
    simpa only [Context.nextIs, beq_iff_eq] using hreturn
  have hdemand : c.demand = 1 := by simp only [Context.demand, hslot, Opcode.demand]
  have hsize : c.fp + c.demand ≤ c.stack.size := h
  rw [hdemand] at hsize
  cases hback : c.stack.back? with
  | none =>
    have hempty : c.stack.size = 0 := by rw [Array.back?_eq_none_iff.1 hback, Array.size_empty]
    omega
  | some v => exact ⟨v, rfl, hsize⟩

/-- A return with a value. -/
theorem Context.step_of_returnValue {v : Value} (h : t.context.nextIs .returnValue = true)
    (hv : t.context.stack.back? = some v) :
    Execution.step host nested t = Execution.leave (some v)
      ⟨Execution.recorded .returnValue t, { t.context with
        stack := t.context.stack.pop
        pc := t.context.pc.advance 1 }⟩ := by
  have hslot : t.context.pc.slot? = some (.op .returnValue) := by
    simpa only [Context.nextIs, beq_iff_eq] using h
  have hpop : Context.pop { t.context with pc := t.context.pc.advance 1 } =
      .ok v { t.context with stack := t.context.stack.pop, pc := t.context.pc.advance 1 } := by
    simp only [Context.pop, hv]
  rw [Execution.step_of_opcode hslot]
  exact Execution.bind_of_ok (Execution.transition_of_ok hpop)

/-- A return without a value, at its opcode or at the end of the code. -/
theorem Context.Returns.step_eq (h : t.context.Returns)
    (hnothing : t.context.nextIs .returnValue = false) :
    ∃ pc, Execution.step host nested t =
      Execution.leave none ⟨Execution.recorded .returnNothing t, { t.context with pc := pc }⟩ := by
  rcases h with hend | hnext | hvalue
  · exact ⟨t.context.pc, Execution.step_of_end hend⟩
  · have hslot : t.context.pc.slot? = some (.op .returnNothing) := by
      simpa only [Context.nextIs, beq_iff_eq] using hnext
    exact ⟨t.context.pc.advance 1, Execution.step_of_opcode hslot⟩
  · rw [hnothing] at hvalue
    cases hvalue

/-- Calls and returns are balanced, as long as a signed 32-bit number can count the arguments of the
call.  Take a call of a function and any run from there that has not left the frame of the call yet,
whose instructions find their operands in the current frame.  A return that leaves the frame of the
call then finds the caller's stack as it was without the arguments, and goes on at the caller's
frame, after the call.  The value returned is added if a marker after the call asks for it; a return
without a value fails there in the name of the function. -/
theorem Host.call_returns_balanced (hcall : s.CallsFunction id p count)
    (hfew : count < 2147483648) (hstep : host.Steps s outcome t)
    (hrun : host.Runs (Context.Within t.context.fp) Host.AnyWorld t u)
    (horderly : u.context.Orderly) (hfp : u.context.fp = t.context.fp)
    (hreturn : u.context.Returns) (nested : Runner) :
    (u.context.nextIs .returnValue = true → ∃ v after, u.context.stack.back? = some v ∧
      Execution.step host nested u = .ok .next after ∧
      (s.backAddress.slot? = some (.op .fetchResult) → after.context.BackAt s count (some v)) ∧
      (s.backAddress.slot? ≠ some (.op .fetchResult) → after.context.BackAt s count none)) ∧
    (u.context.nextIs .returnValue = false →
      (s.backAddress.slot? = some (.op .fetchResult) → ∃ after, Execution.step host nested u =
        .error (.fault (.missingResult (u.world.symbols.name id))) after) ∧
      (s.backAddress.slot? ≠ some (.op .fetchResult) → ∃ after,
        Execution.step host nested u = .ok .next after ∧ after.context.BackAt s count none)) := by
  obtain ⟨fuel, hstep⟩ := hstep
  obtain ⟨hcallee, hchained⟩ := hcall.chained hstep
  have hafter := hchained.runs (fun c hc => ⟨hc.orderly, fun hret heq =>
    absurd (heq.trans hcallee.symm) (hc.stays hret)⟩) hrun
  have hroot : u.context.fp = (s.callFrame count).fp := hfp.trans hcallee
  constructor
  · intro hvalue
    obtain ⟨v, hv, hsize⟩ := horderly.pop hvalue
    have hpopped := hafter.shrink hsize
    rw [Array.extract_eq_pop rfl] at hpopped
    rw [Context.step_of_returnValue hvalue hv]
    let popped : Context :=
      { u.context with stack := u.context.stack.pop, pc := u.context.pc.advance 1 }
    by_cases hmarker : s.backAddress.slot? = some (.op .fetchResult)
    · obtain ⟨after, heq, hback⟩ := Chained.leave_marked popped v hpopped hroot hfew hmarker
      exact ⟨v, after, hv, heq, fun _ => hback, fun hne => absurd hmarker hne⟩
    · obtain ⟨after, heq, hback⟩ :=
        Chained.leave_unmarked popped (some v) hpopped hroot hfew hmarker
      exact ⟨v, after, hv, heq, fun heq => absurd heq hmarker, fun _ => hback⟩
  · intro hnothing
    obtain ⟨pc, heq⟩ := hreturn.step_eq hnothing
    rw [heq]
    constructor
    · intro hmarker
      exact Chained.leave_missing hcall hafter hroot hfew hmarker
    · intro hmarker
      exact Chained.leave_unmarked _ none hafter hroot hfew hmarker

/-- A call whose result is wanted, from the call to the return. -/
theorem Host.call_returns_balanced_at_sample :
    Sample.calling.CallsFunction ⟨0⟩ Sample.countArguments 1 ∧
      Sample.host.Steps Sample.calling .next Sample.called ∧
      ∃ after, Execution.step Sample.host (Sample.host.resume 0) Sample.returning =
          .ok .next after ∧
        after.context.BackAt Sample.calling 1 (some (.int 1)) := by
  have hcall : Sample.calling.CallsFunction ⟨0⟩ Sample.countArguments 1 :=
    ⟨rfl, rfl, ⟨1, rfl, rfl⟩, ⟨_, rfl, rfl, rfl⟩⟩
  have hrun : Sample.host.Runs (Context.Within 10) Host.AnyWorld Sample.called
      Sample.returning :=
    .step .start ⟨by decide, by decide⟩ Sample.called_steps (by decide)
  have hbalanced := Host.call_returns_balanced hcall (by decide) Sample.calling_steps hrun
    (by decide) rfl (by decide) (Sample.host.resume 0)
  obtain ⟨v, after, hv, heq, hback, -⟩ := hbalanced.1 rfl
  cases hv
  exact ⟨hcall, Sample.calling_steps, after, heq, hback rfl⟩

/-! ## A call that is not balanced -/

/-- A frame whose arguments cannot be counted cannot be left. -/
theorem Execution.leave_of_uncounted {w : World} {c : Context} {e : Fault} (value : Option Value)
    (h : c.argumentCount = .error e) : leave value ⟨w, c⟩ = .error (.fault e) ⟨w, c⟩ := by
  have hpop : Context.popFrame c = .error e c := by simp only [Context.popFrame, h]
  exact bind_of_error (transition_of_error hpop)

namespace Sample

/-- A program that returns at once. -/
def quitter : ProgramRef :=
  ⟨2, ⟨#[.op .returnNothing], []⟩⟩

/-- A macro that calls it with all the arguments that there are, and wants the result. -/
def crowdCaller : ProgramRef :=
  ⟨0, ⟨#[.op .call, .symbol ⟨0⟩, .immediate 2147483648, .op .fetchResult, .op .returnValue], []⟩⟩

/-- The macro with its arguments, about to call the function. -/
def crowdCalling (arguments : List Value) : State :=
  ⟨World.ofSymbols ⟨#[⟨"quit", .function, .program quitter⟩], [⟨0⟩], [], 0, 0⟩,
    ⟨arguments.toArray, 2147483653, 0, ⟨crowdCaller, 0⟩, none, none⟩⟩

/-- The macro in the function. -/
def crowdCalled (arguments : List Value) : State :=
  ⟨Execution.recorded .call (crowdCalling arguments),
    ⟨withFrame arguments.toArray (some ⟨crowdCaller, 3⟩) (some 0) 2147483648 0, 2147483653,
      arguments.length + 4, ⟨quitter, 0⟩, none, none⟩⟩

theorem crowdCalling_calls (arguments : List Value) :
    (crowdCalling arguments).CallsFunction ⟨0⟩ quitter 2147483648 :=
  ⟨rfl, rfl, ⟨2147483648, rfl, rfl⟩, ⟨_, rfl, rfl, rfl⟩⟩

theorem crowdCalling_steps {arguments : List Value} (hmany : arguments.length = 2147483648) :
    crowdedHost.Steps (crowdCalling arguments) .next (crowdCalled arguments) := by
  refine ⟨0, ?_⟩
  have hcount : 2147483648 ≤ arguments.toArray.size := Nat.le_of_eq hmany.symm
  have hroom : arguments.toArray.size + (4 + quitter.program.locals.length) ≤ 2147483653 := by
    show arguments.length + (4 + 0) ≤ 2147483653
    omega
  rw [(crowdCalling_calls arguments).step_eq, Context.enter,
    Context.pushFrame_of_room _ _ hcount hroom]
  rfl

/-- The function cannot return. -/
theorem crowdCalled_stuck {arguments : List Value} :
    ∃ after, Execution.step crowdedHost (fun _ _ => none) (crowdCalled arguments) =
      .error (.fault (.malformed (.corruptSlot .argumentCount (.int (-2147483648))))) after := by
  have hcount : (crowdCalled arguments).context.argumentCount =
      .error (.malformed (.corruptSlot .argumentCount (.int (-2147483648)))) :=
    Context.argumentCount_of_many rfl rfl
  have hop : (crowdCalled arguments).context.pc.slot? = some (.op .returnNothing) := rfl
  rw [Execution.step_of_opcode hop]
  exact ⟨_, Execution.leave_of_uncounted none hcount⟩

theorem crowdCalled_orderly (arguments : List Value) :
    (crowdCalled arguments).context.Orderly := by
  show arguments.length + 4 + 0 ≤ (withFrame arguments.toArray _ _ _ _).size
  exact Nat.le_of_eq (size_withFrame _ _ _ _).symm

end Sample

/-- A call with 2147483648 arguments succeeds, but its frame cannot be left: a return without a
value to the marker after the call fails, and not because the value is missing. -/
theorem Host.call_unbalanced_over_crowd :
    (Sample.crowdCalling Sample.crowd).CallsFunction ⟨0⟩ Sample.quitter 2147483648 ∧
    Sample.crowdedHost.Steps (Sample.crowdCalling Sample.crowd) .next
      (Sample.crowdCalled Sample.crowd) ∧
    (Sample.crowdCalling Sample.crowd).backAddress.slot? = some (.op .fetchResult) ∧
    (Sample.crowdCalled Sample.crowd).context.Orderly ∧
    (Sample.crowdCalled Sample.crowd).context.nextIs .returnNothing = true ∧
    ∃ after, Execution.step Sample.crowdedHost (fun _ _ => none) (Sample.crowdCalled Sample.crowd) =
      .error (.fault (.malformed (.corruptSlot .argumentCount (.int (-2147483648))))) after :=
  ⟨Sample.crowdCalling_calls _, Sample.crowdCalling_steps Sample.length_crowd, rfl,
    Sample.crowdCalled_orderly _, rfl, Sample.crowdCalled_stuck⟩

end MacroMachine
