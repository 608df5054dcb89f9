import MacroMachine.Proofs.SymbolReads

/-!
# Live frames

The frames that have not returned form a chain (`FrameChain`).  This module follows the chain
through one instruction, frame by frame.  An instruction works in the newest frame, puts new frames
on top, or takes the newest one away; what the other frames have on the stack it leaves alone.

*One slot.*  Only one slot below the frame pointer is ever written: the one that keeps the arguments
of the newest frame as an array, and only by the instruction that asks for that array.

*Routines.*  A routine that is called may enter several programs at once, so that an instruction may
put any number of frames on the chain (`State.Evolves`).
-/

namespace MacroMachine

variable {host : Host} {nested : Runner} {s₀ s t u : State} {root : Frame} {fps : List Nat}
  {outcome : Outcome}

/-- A value on top leaves the stack below it alone. -/
theorem push_below {stack : Array Value} (v : Value) {i : Nat} (h : i < stack.size) :
    (stack.push v)[i]? = stack[i]? := by
  rw [Array.getElem?_push, if_neg (Nat.ne_of_lt h)]

/-! ## The newest frame -/

/-- Below the frame pointer an instruction has put an array into the slot for the arguments, if it
asks for that array, and has changed nothing else. -/
structure State.Spares (s₀ s : State) : Prop where
  fp : s.context.fp = s₀.context.fp
  size : s₀.context.fp ≤ s.context.stack.size
  below : ∀ i < s₀.context.fp, s.context.stack[i]? = s₀.context.stack[i]? ∨
    i + 1 = s₀.context.fp ∧ s₀.context.nextIs .pushArgumentArray ∧
      ∃ ref, s.context.stack[i]? = some (.array ref)

/-- A further change above the frame pointer. -/
theorem State.Spares.above (h : s₀.Spares s) (hfp : t.context.fp = s.context.fp)
    (hsize : s₀.context.fp ≤ t.context.stack.size)
    (hsame : ∀ i < s₀.context.fp, t.context.stack[i]? = s.context.stack[i]?) : s₀.Spares t where
  fp := hfp.trans h.fp
  size := hsize
  below i hi := by
    rw [hsame i hi]
    exact h.below i hi

theorem Popped.spares {a : CodeAddress} {n : Nat} (h : Popped s₀ a n s)
    (horderly : s₀.context.Orderly) : s₀.Spares s := by
  have hfew := h.few
  have hdemand : s₀.context.fp + s₀.context.demand ≤ s₀.context.stack.size := horderly
  refine ⟨by rw [h.context], ?_, fun i hi => .inl ?_⟩
  · rw [h.size]
    omega
  · rw [h.stack]
    exact extract_below (by omega)

theorem State.Spares.put (h : s₀.Spares s) (place : Place) (v : Value) :
    s₀.Spares (s.put place v) := by
  cases place with
  | frame offset =>
    have hfp := h.fp
    refine h.above rfl ?_ fun i hi => Array.getElem?_setIfInBounds_ne (by omega)
    show _ ≤ (Array.setIfInBounds _ _ _).size
    rw [Array.size_setIfInBounds]
    exact h.size
  | global id => exact h.above rfl h.size fun _ _ => rfl

theorem During.spares (h : During s₀ s) (horderly : s₀.context.Orderly) : s₀.Spares s := by
  induction h with
  | popped hs => exact hs.spares horderly
  | jump target _ ih => exact ih.above rfl ih.size fun _ _ => rfl
  | push v _ _ ih =>
    have hsize := ih.size
    refine ih.above rfl ?_ fun i hi => push_below v (by omega)
    show _ ≤ (Array.push _ v).size
    rw [Array.size_push]
    exact Nat.le_succ_of_le hsize
  | make e _ ih => exact ih.above rfl ih.size fun _ _ => rfl
  | @store s place v _ _ _ ih => exact ih.put place v
  | @storeNew s place e _ _ ih =>
    have hmade : s₀.Spares (s.make e) := ih.above rfl ih.size fun _ _ => rfl
    exact hmade.put place _
  | @cache s e _ hnext ih =>
    have hfp := ih.fp
    have hsize := ih.size
    refine ⟨hfp, ?_, fun i hi => ?_⟩
    · show _ ≤ (Array.setIfInBounds _ _ _).size
      rw [Array.size_setIfInBounds]
      exact hsize
    · by_cases hlast : i + 1 = s₀.context.fp
      · refine .inr ⟨hlast, hnext, s.fresh, ?_⟩
        have hslot : i = s.context.fp - 1 := by omega
        rw [hslot]
        exact Array.getElem?_setIfInBounds_self_of_lt (by omega)
      · refine .inl (Eq.trans ?_ ((ih.below i hi).resolve_right fun h => hlast h.1))
        exact Array.getElem?_setIfInBounds_ne (by omega)
  | alter _ _ ih => exact ih.above rfl ih.size fun _ _ => rfl

/-- An array in the slot for the arguments leaves the frames chained. -/
theorem FrameChain.spares (h : FrameChain False root s₀.context.stack s₀.context.fp fps)
    (hs : s₀.Spares s) : FrameChain False root s.context.stack s.context.fp fps := by
  rw [hs.fp]
  by_cases hcached : ∃ ref, s.context.stack[s₀.context.fp - 1]? = some (.array ref)
  · obtain ⟨ref, hcached⟩ := hcached
    have hsize := h.fp_le
    refine (h.withCache ref).agree fun i hi => ?_
    rw [Array.getElem?_setIfInBounds]
    split
    · next hlast => rw [if_pos (by omega), ← hlast, hcached]
    · next hother => exact (hs.below i hi).resolve_right fun ⟨hlast, _⟩ => hother (by omega)
  · refine h.agree fun i hi => (hs.below i hi).resolve_right ?_
    rintro ⟨hlast, -, ref, hslot⟩
    have hi : i = s₀.context.fp - 1 := by omega
    exact hcached ⟨ref, hi ▸ hslot⟩

/-! ## Frames on top -/

/-- Programs that wait have put frames on top, which keep no arrays yet. -/
theorem FrameChain.queued {c : Context} (h : FrameChain False root c.stack c.fp fps)
    (queue : List ProgramRef) :
    ∃ new, FrameChain False root (c.queued queue).stack (c.queued queue).fp (new ++ fps) ∧
      (∀ i < c.stack.size, (c.queued queue).stack[i]? = c.stack[i]?) ∧
      ∀ g ∈ new, c.fp < g ∧ (c.queued queue).stack[g - 1]? = some .unset := by
  induction queue with
  | nil => exact ⟨[], h, fun _ _ => rfl, fun g hg => absurd hg List.not_mem_nil⟩
  | cons p queue ih =>
    obtain ⟨new, hchain, hbelow, hnew⟩ := ih
    have hfp := hchain.fp_le
    have hsize : c.stack.size ≤ (c.queued queue).stack.size := Context.size_le_queued
    have hframe : Frame.On False ⟨(c.queued queue).stack.size + 4, 0,
        some (c.queued queue).pc, some (c.queued queue).fp⟩ (c.queued (p :: queue)).stack :=
      Frame.on_withFrame _ _ (Nat.zero_le _) False.elim
    have hsame : ∀ i < (c.queued queue).stack.size,
        (c.queued (p :: queue)).stack[i]? = (c.queued queue).stack[i]? :=
      fun i hi => withFrame_below _ _ _ _ hi
    refine ⟨((c.queued queue).stack.size + 4) :: new, ?_, fun i hi => ?_, fun g hg => ?_⟩
    · exact .inner hframe rfl rfl hfp (hchain.agree fun i hi => hsame i (by omega))
    · rw [hsame i (by omega), hbelow i hi]
    · rcases List.mem_cons.1 hg with rfl | hg
      · refine ⟨by have := h.fp_le; omega, ?_⟩
        exact withFrame_slot (c.queued queue).stack _ _ 0 p.program.locals.length (i := 3)
          (by decide)
      · obtain ⟨hlt, hunset⟩ := hnew g hg
        have hle := hchain.decreasing.2.1 g (List.mem_append_left _ hg)
        exact ⟨hlt, by rw [hsame _ (by omega), hunset]⟩

/-! ## Single instructions -/

/-- What an instruction makes of the chain of frames.  The lists have the frame pointers of the
frames that have not returned. -/
inductive State.Evolves (s t : State) : List Nat → List Nat → Prop where
  /-- It works in the newest frame. -/
  | stays {fps : List Nat} : s.Spares t → Evolves s t fps fps
  /-- It puts frames on top. -/
  | enters {fps : List Nat} (new : List Nat) :
      (∀ i < s.context.fp, t.context.stack[i]? = s.context.stack[i]?) →
      (∀ g ∈ new, s.context.fp < g ∧ t.context.stack[g - 1]? = some .unset) →
      Evolves s t fps (new ++ fps)
  /-- It takes the newest frame away. -/
  | returns {caller : Nat} {fps : List Nat} : s.context.Returns →
      (∀ i < caller, t.context.stack[i]? = s.context.stack[i]?) →
      Evolves s t (s.context.fp :: caller :: fps) (caller :: fps)

/-- A frame that is live before and after an instruction has its slots below the frame pointer as
they were, but for the array that it may keep. -/
theorem State.Evolves.kept {fps' : List Nat} (h : s.Evolves t fps fps') {g : Nat}
    (hg : g ∈ fps) (hg' : g ∈ fps') (hle : ∀ f ∈ fps, f ≤ s.context.fp)
    (hsorted : fps.Pairwise (· > ·)) {i : Nat} (hi : i < g)
    (hslot : i + 1 = s.context.fp → ¬ s.context.nextIs .pushArgumentArray) :
    t.context.stack[i]? = s.context.stack[i]? := by
  have hgle := hle g hg
  cases h with
  | stays hspares =>
    exact (hspares.below i (by omega)).resolve_right fun ⟨hlast, hnext, _⟩ => hslot hlast hnext
  | enters new hbelow _ => exact hbelow i (by omega)
  | returns _ hbelow =>
    refine hbelow i ?_
    rcases List.mem_cons.1 hg' with rfl | hmem
    · exact hi
    · have hlater := (List.pairwise_cons.1 (List.pairwise_cons.1 hsorted).2).1 g hmem
      omega

namespace FrameChain

/-- A routine may have entered programs; what comes on top of them does not matter. -/
theorem after_routine {c : Context} {queue : List ProgramRef}
    (h : FrameChain False root c.stack c.fp fps) (hfp : c.fp = s.context.fp)
    (hbelow : ∀ i < s.context.fp, c.stack[i]? = s.context.stack[i]?)
    (hplace : u.context.SamePlace (c.queued queue)) (htfp : t.context.fp = u.context.fp)
    (htop : ∀ i < u.context.stack.size, t.context.stack[i]? = u.context.stack[i]?) :
    ∃ fps', FrameChain False root t.context.stack t.context.fp fps' ∧ s.Evolves t fps fps' := by
  obtain ⟨new, hchain, hsame, hnew⟩ := h.queued queue
  have hle := hchain.fp_le
  have hcfp := h.fp_le
  have hsize : c.stack.size ≤ (c.queued queue).stack.size := Context.size_le_queued
  have hstack : ∀ i < (c.queued queue).stack.size,
      t.context.stack[i]? = (c.queued queue).stack[i]? := by
    intro i hi
    rw [htop i (hplace.stack ▸ hi), hplace.stack]
  refine ⟨new ++ fps, ?_, .enters new (fun i hi => ?_) fun g hg => ?_⟩
  · rw [htfp, hplace.fp]
    exact hchain.agree fun i hi => hstack i (by omega)
  · rw [hstack i (by omega), hsame i (by omega), hbelow i hi]
  · obtain ⟨hlt, hunset⟩ := hnew g hg
    have hgle := hchain.decreasing.2.1 g (List.mem_append_left _ hg)
    exact ⟨by omega, by rw [hstack _ (by omega), hunset]⟩

/-- A call of a routine. -/
theorem call_routine {id : SymbolId} {routine : NativeId} {arguments : List Value}
    {base : Array Value} (h : FrameChain False root s.context.stack s.context.fp fps)
    (horderly : s.context.Orderly) (hcalls : s.CallsRoutine id routine arguments base)
    (hstep : Execution.step host nested s = .ok outcome t) :
    ∃ fps', FrameChain False root t.context.stack t.context.fp fps' ∧ s.Evolves t fps fps' := by
  obtain ⟨v, preempting, u, hperform, hdeliver, -⟩ := hcalls.step_eq_ok_iff.1 hstep
  have hbase : s.context.fp ≤ base.size := by
    obtain ⟨n, hslot, hn⟩ := hcalls.count
    have hnumber : (s.context.pc.advance 2).number = n.toInt := by
      rw [CodeAddress.number, hslot]
    have hdemand : s.context.demand = arguments.length := by
      rw [Effects.demand_eq hcalls.opcode]
      show ((s.context.pc.advance 2).number).toNat = _
      rw [hnumber, hn, Int.toNat_natCast]
    have horderly : s.context.fp + s.context.demand ≤ s.context.stack.size := horderly
    have hsize : s.context.stack.size = base.size + arguments.length := by
      rw [hcalls.stack, Array.size_append]
      rfl
    omega
  have hbelow : ∀ i < s.context.fp, base[i]? = s.context.stack[i]? := by
    intro i hi
    rw [hcalls.stack, Array.getElem?_append_left (by omega)]
  have hchain : FrameChain False root (s.serving .call 3 base routine arguments).context.stack
      (s.serving .call 3 base routine arguments).context.fp fps := h.agree hbelow
  refine hchain.after_routine rfl hbelow (Execution.perform_samePlace hperform) ?_ ?_
  · rcases Execution.deliver_eq_ok_iff.1 hdeliver with ⟨-, rfl⟩ | ⟨-, -, -, rfl⟩ <;> rfl
  · rcases Execution.deliver_eq_ok_iff.1 hdeliver with ⟨-, rfl⟩ | ⟨-, -, -, rfl⟩
    · exact fun _ _ => rfl
    · exact fun i hi => push_below v hi

/-- A read of a symbol. -/
theorem read {id : SymbolId} (h : FrameChain False root s.context.stack s.context.fp fps)
    (hreads : s.Reads id) (hstep : Execution.step host nested s = .ok outcome t) :
    ∃ fps', FrameChain False root t.context.stack t.context.fp fps' ∧ s.Evolves t fps fps' := by
  obtain ⟨v, u, hvalue, -, -, -, rfl⟩ := hreads.step_eq_ok_iff.1 hstep
  obtain ⟨-, hplace, -⟩ := State.gives_of_symbolValue hvalue
  have hchain : FrameChain False root s.reading.context.stack s.reading.context.fp fps := h
  exact hchain.after_routine rfl (fun _ _ => rfl) hplace rfl fun i hi => push_below v hi

/-- A call of a function. -/
theorem call_function {a : CodeAddress} {c : Context} (p : ProgramRef)
    (h : FrameChain False root s.context.stack s.context.fp fps) (horderly : s.context.Orderly)
    (ht : t.context = { c with
      stack := withFrame s.context.stack (some a) (some s.context.fp) s.context.demand
        p.program.locals.length
      fp := s.context.stack.size + 4
      pc := ⟨p, 0⟩ }) :
    ∃ fps', FrameChain False root t.context.stack t.context.fp fps' ∧ s.Evolves t fps fps' := by
  have hle := h.fp_le
  have hdemand : s.context.fp + s.context.demand ≤ s.context.stack.size := horderly
  have hframe : Frame.On False ⟨s.context.stack.size + 4, s.context.demand, some a,
      some s.context.fp⟩ t.context.stack := by
    rw [ht]
    exact Frame.on_withFrame _ _ (by omega) False.elim
  have hsame : ∀ i < s.context.stack.size, t.context.stack[i]? = s.context.stack[i]? := by
    intro i hi
    rw [ht]
    exact withFrame_below _ _ _ _ hi
  refine ⟨[s.context.stack.size + 4] ++ fps, ?_, .enters _ (fun i hi => hsame i (by omega)) ?_⟩
  · have hfp : t.context.fp = s.context.stack.size + 4 := by rw [ht]
    rw [hfp]
    refine .inner hframe rfl rfl ?_ (h.agree fun i hi => hsame i (by omega))
    show s.context.fp ≤ s.context.stack.size + 4 - (4 + s.context.demand)
    omega
  · intro g hg
    cases List.mem_singleton.1 hg
    refine ⟨by omega, ?_⟩
    rw [ht]
    exact withFrame_slot s.context.stack _ _ _ p.program.locals.length (i := 3) (by decide)

/-- A return.  The root is left only to end the macro. -/
theorem leave (h : FrameChain False root s.context.stack s.context.fp fps)
    (horderly : s.context.Orderly) (hreturns : s.context.Returns)
    (hleaves : s.context.fp = root.fp → root.returnTo = none)
    (hreturned : Returned s t) :
    ∃ fps', FrameChain False root t.context.stack t.context.fp fps' ∧ s.Evolves t fps fps' := by
  obtain @⟨_, _, v, _, caller, m, hs, haddress, hframe, hcount, -, hfp, -, hbelow, -⟩ := hreturned
  have hspares := hs.spares horderly
  have hsame : ∀ i < s.context.fp, v.context.stack[i]? = s.context.stack[i]? := by
    intro i hi
    have hfew := hs.few
    have hdemand : s.context.fp + s.context.demand ≤ s.context.stack.size := horderly
    rw [hs.stack]
    exact extract_below (by omega)
  have hchain := h.agree hsame
  rw [hspares.fp] at haddress hframe hcount hbelow
  generalize hnow : s.context.fp = fp at *
  cases hchain with
  | root hroot =>
    -- the root has an address to return to, so it may not be left
    have hnone := hroot.address
    rw [haddress, hleaves rfl] at hnone
    cases hnone
  | @inner f _ parent fps hf hreturn hcaller hbase hrest =>
    have hparent := hf.frame
    rw [hframe, hcaller] at hparent
    cases hparent
    have hfrom := hf.base_le_sub hcount
    have hto : ∀ i < parent, t.context.stack[i]? = v.context.stack[i]? :=
      fun i hi => hbelow i (by omega)
    have hfp : t.context.fp = parent := hfp
    refine ⟨fps, hfp ▸ hrest.agree hto, ?_⟩
    have hhead : ∃ others, fps = parent :: others := by
      cases hrest with
      | root _ => exact ⟨[], rfl⟩
      | inner _ _ _ _ _ => exact ⟨_, rfl⟩
    obtain ⟨others, rfl⟩ := hhead
    rw [← hnow]
    refine .returns hreturns fun i hi => ?_
    rw [hto i hi, hsame i (by omega)]

/-- One instruction of a run of orderly instructions that does not leave the root. -/
theorem step (h : FrameChain False root s.context.stack s.context.fp fps)
    (horderly : s.context.Orderly)
    (hleaves : s.context.Returns → s.context.fp = root.fp → root.returnTo = none)
    (hstep : Execution.step host nested s = .ok outcome t) (hgoes : outcome ≠ .done) :
    ∃ fps', FrameChain False root t.context.stack t.context.fp fps' ∧ s.Evolves t fps fps' := by
  by_cases hinvokes : s.Invokes
  · obtain ⟨id, symbol, routine, hname, hget, hvalue, ⟨hnext, hkind⟩ | ⟨hnext, -⟩⟩ := hinvokes
    · obtain ⟨arguments, base, hcalls⟩ := State.callsRoutine_of_step (Effects.nextIs_iff.1 hnext)
        hname hget hkind hvalue hstep
      exact h.call_routine horderly hcalls hstep
    · exact h.read ⟨Effects.nextIs_iff.1 hnext, hname⟩ hstep
  · cases becomes_of_step hstep hinvokes with
    | stays hduring =>
      have hspares := hduring.spares horderly
      exact ⟨fps, h.spares hspares, .stays hspares⟩
    | @enters a s' p _ hs _ =>
      have hstack : s'.context.stack = s.context.stack := by
        rw [hs.stack, Nat.sub_zero, Array.extract_size]
      have hfp : s'.context.fp = s.context.fp := by rw [hs.context]
      rw [hstack, hfp]
      exact h.call_function p horderly rfl
    | returns hreturns hreturned => exact h.leave horderly hreturns (hleaves hreturns) hreturned
    | ends _ _ => exact absurd rfl hgoes

end FrameChain

end MacroMachine
