import MacroMachine.Proofs.ArgumentArrays
import MacroMachine.Proofs.VariableWrites

/-!
# Activations

An activation is the life of one frame: from the instruction that enters it to the one that returns
from it.  In between other frames come and go above it, and the same program may have frames below
and above.  This module says what the local variables of a frame hold at any time of its activation.

*Frames.*  An instruction works in the newest frame, puts frames on top of it (`Context.Adds`) or
returns from it; in each case one sees what becomes of every live frame (`State.FrameAfter`).

*Logs.*  A run comes with a record of what it has executed, and so with a log of all that was
written to a frame (`storesIn`).  A local variable holds the latest entry for it, or nothing if
there is none (`Host.Trail.shows`).
-/

namespace MacroMachine

/-! ## Frames on top -/

/-- The context has its frames as they were, and perhaps new ones on top, in which the local
variables have no values yet. -/
structure Context.Adds (c c' : Context) : Prop where
  wellLaid : c'.WellLaid
  size : c.stack.size ≤ c'.stack.size
  same : ∀ i < c.stack.size, c'.stack[i]? = c.stack[i]?
  frames : ∀ g q, c'.Live g q → c.Live g q ∨ c.stack.size < g ∧
    ∀ offset < q.program.locals.length, c'.stack[g + offset]? = some .unset

section Adding

variable {c c' c'' : Context} {queue : List ProgramRef}

theorem Context.Adds.trans (h : c.Adds c') (h' : c'.Adds c'') : c.Adds c'' where
  wellLaid := h'.wellLaid
  size := Nat.le_trans h.size h'.size
  same i hi := (h'.same i (Nat.lt_of_lt_of_le hi h.size)).trans (h.same i hi)
  frames g q hlive := by
    have hsize := h.size
    rcases h'.frames g q hlive with hlive' | ⟨hnew, hunset⟩
    · rcases h.frames g q hlive' with hold | ⟨hnew, hunset⟩
      · exact .inl hold
      · have hle := h.wellLaid.le_size hlive'
        refine .inr ⟨hnew, fun offset hoffset => ?_⟩
        rw [h'.same _ (by omega), hunset offset hoffset]
    · exact .inr ⟨by omega, hunset⟩

/-- What comes on top of the newest frame does not matter. -/
theorem Context.WellLaid.adds_top (h : c.WellLaid) (hfp : c'.fp = c.fp)
    (hprogram : c'.pc.program = c.pc.program) (hsize : c.stack.size ≤ c'.stack.size)
    (hsame : ∀ i < c.stack.size, c'.stack[i]? = c.stack[i]?) : c.Adds c' := by
  have hroom := h.room
  have hframes : c.SameFrames c' :=
    ⟨hfp, hprogram, Nat.le_trans h.room hsize, fun i hi => hsame i (by omega)⟩
  exact ⟨hframes.wellLaid h, hsize, hsame, fun _ _ hlive => .inl ((hframes.live h).1 hlive)⟩

/-- A call. -/
theorem Context.WellLaid.adds_frame (h : c.WellLaid) {count : Nat} (p : ProgramRef)
    (hroom : c.fp + c.localCount + count ≤ c.stack.size) : c.Adds { c with
      stack := withFrame c.stack (some c.pc) (some c.fp) count p.program.locals.length
      fp := c.stack.size + 4
      pc := ⟨p, 0⟩ } := by
  obtain ⟨hlaid, hframes⟩ := h.enter p hroom rfl
  refine ⟨hlaid, ?_, fun i hi => withFrame_below _ _ _ _ hi, fun g q hlive => ?_⟩
  · rw [size_withFrame]
    omega
  · rcases hframes g q hlive with ⟨rfl, rfl⟩ | hold
    · refine .inr ⟨by omega, fun offset hoffset => ?_⟩
      exact withFrame_local _ _ _ _ (by omega) (by omega)
    · exact .inl hold

/-- Programs that wait. -/
theorem Context.WellLaid.adds_queued (h : c.WellLaid) (queue : List ProgramRef) :
    c.Adds (c.queued queue) := by
  induction queue with
  | nil => exact h.adds_top rfl rfl (Nat.le_refl _) fun _ _ => rfl
  | cons p queue ih => exact ih.trans (ih.wellLaid.adds_frame p ih.wellLaid.room)

/-- A routine may have entered programs; what comes on top of them does not matter. -/
theorem Context.WellLaid.adds_routine {u t : Context} (h : c.WellLaid)
    (hplace : u.SamePlace (c.queued queue)) (hfp : t.fp = u.fp)
    (hprogram : t.pc.program = u.pc.program) (hsize : u.stack.size ≤ t.stack.size)
    (hsame : ∀ i < u.stack.size, t.stack[i]? = u.stack[i]?) : c.Adds t := by
  have hqueued := h.adds_queued queue
  rw [hplace.stack] at hsize hsame
  exact hqueued.trans (hqueued.wellLaid.adds_top (hfp.trans hplace.fp)
    (hprogram.trans (congrArg CodeAddress.program hplace.pc)) hsize hsame)

end Adding

/-! ## Single instructions -/

/-- What the next instruction writes to the frame at a frame pointer, the latest first. -/
def State.storesAt (s : State) (g : Nat) : List (Nat × Value) :=
  if s.context.fp = g then s.stores else []

/-- What an instruction makes of the local variables of a frame that is live after it. -/
inductive State.FrameAfter (s t : State) (g : Nat) (q : ProgramRef) : Prop where
  | entered : ¬ s.context.Live g q →
      (∀ offset < q.program.locals.length, t.context.stack[g + offset]? = some .unset) →
      FrameAfter s t g q
  | kept : s.context.Live g q →
      (∀ offset < q.program.locals.length, t.context.stack[g + offset]? =
        ((s.storesAt g).lookup offset).or s.context.stack[g + offset]?) →
      FrameAfter s t g q

/-- What an instruction makes of all frames that are live after it. -/
structure State.FramesAfter (s t : State) : Prop where
  wellLaid : t.context.WellLaid
  frames : ∀ g q, t.context.Live g q → s.FrameAfter t g q

section Stepping

variable {host : Host} {nested : Runner} {s t u : State} {outcome : Outcome}

/-- An instruction that works in the newest frame. -/
theorem Context.Takes.framesAfter (h : s.context.Takes s.stores t.context)
    (hlaid : s.context.WellLaid) : s.FramesAfter t where
  wellLaid := h.wellLaid hlaid
  frames g q hlive := by
    have hlive := (h.live hlaid).1 hlive
    refine .kept hlive fun offset hoffset => ?_
    rcases hlive.apart hlaid.laid with ⟨rfl, rfl⟩ | hapart
    · rw [State.storesAt, if_pos rfl]
      exact h.slots offset hoffset
    · rw [State.storesAt, if_neg (by omega)]
      exact h.below _ (by omega)

/-- An instruction that puts frames on top. -/
theorem Context.Adds.framesAfter {c : Context} (h : c.Adds t.context)
    (hkeeps : s.context.Keeps none c) (hlaid : s.context.WellLaid) (hstores : s.stores = []) :
    s.FramesAfter t where
  wellLaid := h.wellLaid
  frames g q hlive := by
    have hlaid' := hkeeps.wellLaid hlaid
    rcases h.frames g q hlive with hold | ⟨hnew, hunset⟩
    · have hle := hlaid'.le_size hold
      have hlive := (hkeeps.sameFrames.live hlaid).1 hold
      refine .kept hlive fun offset hoffset => ?_
      have hnone : s.storesAt g = [] := by
        rw [State.storesAt, hstores, ite_self]
      rw [hnone, h.same _ (by omega)]
      exact hkeeps.value hlaid ⟨g, q, hlive, by omega, by omega⟩ nofun
    · refine .entered (fun hlive => ?_) hunset
      have hle := hlaid'.le_size ((hkeeps.sameFrames.live hlaid).2 hlive)
      omega

/-- A return. -/
theorem Returned.framesAfter (h : Returned s t) (hlaid : s.context.WellLaid)
    (habove : s.context.OperandsAbove) : s.FramesAfter t := by
  obtain ⟨hlaid', hframes⟩ := h.frames habove hlaid
  refine ⟨hlaid', fun g q hlive => ?_⟩
  obtain ⟨hold, hapart, hsame⟩ := hframes g q hlive
  refine .kept hold fun offset hoffset => ?_
  rw [State.storesAt, if_neg (by omega)]
  exact hsame _ (by omega)

/-- A read of a symbol, which may run a routine. -/
theorem State.Reads.framesAfter {id : SymbolId} (h : s.Reads id) (hlaid : s.context.WellLaid)
    (hstep : Execution.step host nested s = .ok outcome t) : s.FramesAfter t := by
  obtain ⟨v, u, hvalue, -, -, -, rfl⟩ := h.step_eq_ok_iff.1 hstep
  obtain ⟨-, hplace, -⟩ := State.gives_of_symbolValue hvalue
  have hkeeps : s.context.Keeps none s.reading.context := hlaid.jump (s.context.pc.index + 2)
  have hadds : s.reading.context.Adds (u.withStack (u.context.stack.push v)).context := by
    refine (hkeeps.wellLaid hlaid).adds_routine hplace rfl rfl ?_ fun i hi => push_below v hi
    show _ ≤ (Array.push _ v).size
    rw [Array.size_push]
    exact Nat.le_succ _
  refine hadds.framesAfter hkeeps hlaid ?_
  rw [State.stores, State.writes_eq h.opcode h.name]
  rfl

/-- The arguments of a routine lie above the local variables. -/
theorem State.CallsRoutine.keeps {id : SymbolId} {routine : NativeId} {arguments : List Value}
    {base : Array Value} (h : s.CallsRoutine id routine arguments base)
    (habove : s.context.OperandsAbove) :
    s.context.Keeps none (s.serving .call 3 base routine arguments).context := by
  have hbase : s.context.fp + s.context.localCount ≤ base.size := by
    obtain ⟨n, hslot, hn⟩ := h.count
    have hdemand : s.context.demand = arguments.length := by
      rw [Effects.demand_eq h.opcode]
      show ((s.context.pc.advance 2).number).toNat = _
      rw [CodeAddress.number, hslot]
      exact (congrArg Int.toNat hn).trans (Int.toNat_natCast _)
    have hsize : s.context.stack.size = base.size + arguments.length := by
      rw [h.stack, Array.size_append]
      rfl
    unfold Context.OperandsAbove at habove
    omega
  refine ⟨rfl, rfl, hbase, (fun i hi => by cases hi), fun i hi _ _ => ?_⟩
  rw [h.stack, Array.getElem?_append_left (by omega)]
  rfl

/-- A call of a routine. -/
theorem State.CallsRoutine.framesAfter {id : SymbolId} {routine : NativeId}
    {arguments : List Value} {base : Array Value} (h : s.CallsRoutine id routine arguments base)
    (hlaid : s.context.WellLaid) (habove : s.context.OperandsAbove)
    (hstep : Execution.step host nested s = .ok outcome t) : s.FramesAfter t := by
  obtain ⟨v, preempting, u, hperform, hdeliver, -⟩ := h.step_eq_ok_iff.1 hstep
  have hplace := Execution.perform_samePlace hperform
  have hkeeps := h.keeps habove
  have hserving := hkeeps.wellLaid hlaid
  have hadds : (s.serving .call 3 base routine arguments).context.Adds t.context := by
    rcases Execution.deliver_eq_ok_iff.1 hdeliver with ⟨-, rfl⟩ | ⟨-, -, -, rfl⟩
    · exact hserving.adds_routine hplace rfl rfl (Nat.le_refl _) fun _ _ => rfl
    · refine hserving.adds_routine hplace rfl rfl ?_ fun i hi => push_below v hi
      show _ ≤ (Array.push _ v).size
      rw [Array.size_push]
      exact Nat.le_succ _
  refine hadds.framesAfter hkeeps hlaid ?_
  rw [State.stores, State.writes_eq h.opcode h.name]
  rfl

/-- A call of a function. -/
theorem Popped.framesAfter_of_call {a : CodeAddress} (p : ProgramRef) (h : Popped s a 0 u)
    (hcall : s.context.nextIs .call) (hlaid : s.context.WellLaid)
    (habove : s.context.OperandsAbove) (ht : t.context = { u.context with
      stack := withFrame u.context.stack (some a) (some u.context.fp) s.context.demand
        p.program.locals.length
      fp := u.context.stack.size + 4
      pc := ⟨p, 0⟩ }) : s.FramesAfter t := by
  have hkeeps := h.keeps habove
  have hroom : u.context.fp + u.context.localCount + s.context.demand ≤ u.context.stack.size := by
    rw [hkeeps.fp, hkeeps.sameFrames.localCount, h.size]
    exact habove
  have hadds : u.context.Adds t.context := by
    rw [ht, ← h.pc]
    exact (hkeeps.wellLaid hlaid).adds_frame p hroom
  refine hadds.framesAfter hkeeps hlaid (List.flatMap_eq_nil_iff.2 fun w hw => ?_)
  unfold State.writes at hw
  rw [Effects.nextIs_iff.1 hcall] at hw
  split at hw
  · next op _ hop _ =>
    cases hop
    cases hw
  · cases hw

/-- One instruction. -/
theorem State.framesAfter_of_step (hlaid : s.context.WellLaid) (habove : s.context.OperandsAbove)
    (hstep : Execution.step host nested s = .ok outcome t) (hgoes : outcome ≠ .done) :
    s.FramesAfter t := by
  by_cases hread : s.context.nextIs .pushSymbol
  · have hop := Effects.nextIs_iff.1 hread
    have hname : ∃ id, s.Reads id := by
      rw [Execution.step_of_opcode hop] at hstep
      obtain ⟨id, s₁, hfetch, -⟩ := Execution.bind_eq_ok hstep
      exact ⟨id, hop, (Execution.fetchSymbol_eq_ok hfetch).1⟩
    obtain ⟨id, hreads⟩ := hname
    exact hreads.framesAfter hlaid hstep
  · by_cases hinvokes : s.Invokes
    · obtain ⟨id, symbol, routine, hname, hget, hvalue, ⟨hnext, hkind⟩ | ⟨hnext, -⟩⟩ := hinvokes
      · obtain ⟨arguments, base, hcalls⟩ := State.callsRoutine_of_step (Effects.nextIs_iff.1 hnext)
          hname hget hkind hvalue hstep
        exact hcalls.framesAfter hlaid habove hstep
      · exact absurd hnext hread
    · cases becomes_of_step hstep hinvokes with
      | stays hduring =>
        exact (State.takes_of_stays hlaid habove hread hduring hstep).framesAfter hlaid
      | enters p hcall hs _ => exact hs.framesAfter_of_call p hcall hlaid habove rfl
      | returns _ hreturned => exact hreturned.framesAfter hlaid habove
      | ends _ _ => exact absurd rfl hgoes

end Stepping

/-! ## Runs -/

/-- While a macro lies suspended, a result that is replaced lies above the local variables of the
current frame.  Otherwise anything may happen to the world. -/
def Host.CarefulPause (s t : State) : Prop :=
  t.context = s.context ∨ s.context.fp + s.context.localCount < s.context.stack.size ∧
    ∃ v, t.context = s.context.replaceResult v

/-- What was written to the frame at a frame pointer, the latest first. -/
def storesIn (g : Nat) (since : List (State × State)) : List (Nat × Value) :=
  since.flatMap fun k => k.1.storesAt g

/-- In a run from `s`, the frame at `g` of the program `q` has been live since the oldest of the
instructions in `since`.  The run began in it, or the instruction before has entered it. -/
structure Activation (s : State) (g : Nat) (q : ProgramRef) (past since : List (State × State)) :
    Prop where
  live : ∀ k ∈ since, k.1.context.Live g q
  begins : past = since ∧ s.context.Live g q ∨
    ∃ k before, past = since ++ k :: before ∧ ¬ k.1.context.Live g q ∧ k.2.context.Live g q

/-- The local variables of a frame hold what was last written to them, or nothing. -/
def State.Shows (u : State) (g : Nat) (q : ProgramRef) (since : List (State × State)) : Prop :=
  ∀ offset < q.program.locals.length, u.context.stack[g + offset]? =
    some (((storesIn g since).lookup offset).getD .unset)

section Running

variable {host : Host} {s t u : State} {past since : List (State × State)} {g : Nat}
  {q : ProgramRef} {outcome : Outcome}

theorem storesIn_cons (g : Nat) (k : State × State) (since : List (State × State)) :
    storesIn g (k :: since) = k.1.storesAt g ++ storesIn g since :=
  List.flatMap_cons

theorem Host.CarefulPause.keeps (h : Host.CarefulPause s t) (hlaid : s.context.WellLaid) :
    s.context.Keeps none t.context := by
  rcases h with heq | ⟨hroom, v, heq⟩
  · rw [heq]
    exact hlaid.keeps
  · rw [heq, Context.replaceResult]
    split
    · refine ⟨rfl, rfl, ?_, (fun i hi => by cases hi), fun i hi _ _ => ?_⟩
      · rw [Array.size_setIfInBounds]
        exact hlaid.room
      · exact Array.getElem?_setIfInBounds_ne (by omega)
    · exact hlaid.keeps

/-- One more instruction in the life of a frame. -/
theorem Activation.step (h : Activation s g q past since) (hlive : t.context.Live g q) :
    Activation s g q ((t, u) :: past) ((t, u) :: since) where
  live k hk := by
    rcases List.mem_cons.1 hk with rfl | hk
    · exact hlive
    · exact h.live k hk
  begins := by
    rcases h.begins with ⟨rfl, hs⟩ | ⟨k, before, rfl, hk⟩
    · exact .inl ⟨rfl, hs⟩
    · exact .inr ⟨k, before, rfl, hk⟩

/-- What was written is the latest entry of the log. -/
theorem State.Shows.step (h : t.Shows g q since)
    (hslots : ∀ offset < q.program.locals.length, u.context.stack[g + offset]? =
      ((t.storesAt g).lookup offset).or t.context.stack[g + offset]?) :
    u.Shows g q ((t, u) :: since) := by
  intro offset hoffset
  rw [hslots offset hoffset, h offset hoffset, storesIn_cons, List.lookup_append]
  cases (t.storesAt g).lookup offset with
  | none => rfl
  | some v => rfl

/-- In every run the local variables of every live frame hold what was last written to them in
the activation of that frame. -/
theorem Host.Trail.shows (h : host.Trail Context.OperandsAbove CarefulPause s past u)
    (hlaid : s.context.WellLaid)
    (hunset : ∀ g q, s.context.Live g q → s.Shows g q []) :
    u.context.WellLaid ∧ ∀ g q, u.context.Live g q →
      ∃ since, Activation s g q past since ∧ u.Shows g q since := by
  induction h with
  | start =>
    refine ⟨hlaid, fun g q hlive => ⟨[], ⟨?_, .inl ⟨rfl, hlive⟩⟩, hunset g q hlive⟩⟩
    exact fun k hk => absurd hk List.not_mem_nil
  | @step past t u outcome _ habove hstep hgoes ih =>
    obtain ⟨hlaid, hframes⟩ := ih
    obtain ⟨fuel, hstep⟩ := hstep
    have hafter := State.framesAfter_of_step hlaid habove hstep hgoes
    refine ⟨hafter.wellLaid, fun g q hlive => ?_⟩
    cases hafter.frames g q hlive with
    | entered hnew hunset =>
      refine ⟨[], ⟨?_, .inr ⟨(t, u), past, rfl, hnew, hlive⟩⟩, hunset⟩
      exact fun k hk => absurd hk List.not_mem_nil
    | kept hold hslots =>
      obtain ⟨since, hactivation, hshows⟩ := hframes g q hold
      exact ⟨(t, u) :: since, hactivation.step hold, hshows.step hslots⟩
  | pause _ hpause ih =>
    obtain ⟨hlaid, hframes⟩ := ih
    have hkeeps := hpause.keeps hlaid
    refine ⟨hkeeps.wellLaid hlaid, fun g q hlive => ?_⟩
    have hlive := (hkeeps.sameFrames.live hlaid).1 hlive
    obtain ⟨since, hactivation, hshows⟩ := hframes g q hlive
    refine ⟨since, hactivation, fun offset hoffset => ?_⟩
    rw [hkeeps.value hlaid ⟨g, q, hlive, by omega, by omega⟩ nofun]
    exact hshows offset hoffset

end Running

end MacroMachine
