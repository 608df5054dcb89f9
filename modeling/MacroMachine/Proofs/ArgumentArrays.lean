import MacroMachine.Proofs.LiveFrames
import MacroMachine.Proofs.Operands
import MacroMachine.Proofs.Retention

/-!
# Arguments as arrays

A macro can ask for the arguments of its frame as an array.  The array is made when it is first
asked for, and the frame keeps it in one of its slots.  This module follows these slots, in all
frames that have not returned, through every run of orderly instructions: no two frames keep the
same container, and what a frame keeps it keeps until it returns.

*The past.*  Which container was given when is a question about the past of a run, so runs come with
a record of what was executed (`Host.Trail`).

*Two invariants.*  What holds of all frames alike, that they keep containers that exist (`Ledger`),
carries what holds of one frame since it was entered (`Tenure`).
-/

namespace MacroMachine

/-! ## Pauses -/

namespace Host

/-- While a macro lies suspended, no containers are given up, and a result that is replaced lies in
the current frame.  Otherwise anything may happen to the world. -/
def OrderlyPause (s t : State) : Prop :=
  s.world.Retains t.world ∧ (t.context = s.context ∨
    s.context.fp < s.context.stack.size ∧ ∃ v, t.context = s.context.replaceResult v)

theorem OrderlyPause.kept {s t : State} (h : OrderlyPause s t) :
    t.context.fp = s.context.fp ∧
      ∀ i < s.context.fp, t.context.stack[i]? = s.context.stack[i]? := by
  rcases h.2 with heq | ⟨hsize, v, heq⟩
  · rw [heq]
    exact ⟨rfl, fun _ _ => rfl⟩
  · rw [heq, Context.replaceResult]
    split
    · exact ⟨rfl, fun i hi => Array.getElem?_setIfInBounds_ne (by omega)⟩
    · exact ⟨rfl, fun _ _ => rfl⟩

end Host

variable {host : Host} {nested : Runner} {s t u : State} {root : Frame} {fps : List Nat}
  {outcome : Outcome} {ref : ArrayRef} {arguments : List Value}

/-! ## Asking for the array -/

/-- The frame at a frame pointer keeps its arguments in this container. -/
def State.Caches (s : State) (fp : Nat) (ref : ArrayRef) : Prop :=
  s.context.stack[fp - 1]? = some (.array ref)

theorem State.Caches.unique {fp : Nat} {ref' : ArrayRef} (h : s.Caches fp ref)
    (h' : s.Caches fp ref') : ref = ref' := by
  cases Eq.trans (Eq.symm h) h'
  rfl

theorem Execution.push_next_of_room (v : Value) (h : s.context.stack.size < s.context.limit) :
    (push v >>= fun _ => pure .next : Execution Outcome) s =
      .ok .next (s.withStack (s.context.stack.push v)) :=
  bind_of_ok (transition_of_ok (Context.push_of_room v h))

theorem Execution.room_of_push_next {v : Value}
    (h : (push v >>= fun _ => pure .next : Execution Outcome) s = .ok outcome t) :
    s.context.stack.size < s.context.limit := by
  refine Nat.not_le.1 fun hfull => ?_
  have hpush : Context.push v s.context = .error .stackOverflow s.context := by
    simp only [Context.push, if_pos hfull]
  cases (bind_of_error (transition_of_error hpush)).symm.trans h

/-- A frame that keeps an array gives it again. -/
theorem State.step_of_cached (hnext : s.context.nextIs .pushArgumentArray)
    (hfp : 1 ≤ s.context.fp) (h : s.Caches s.context.fp ref) :
    Execution.step host nested s =
      (Execution.push (.array ref) >>= fun _ => pure .next : Execution Outcome)
        (s.past .pushArgumentArray s.context.stack) := by
  have hcached : Context.argumentArray (s.past .pushArgumentArray s.context.stack).context =
      .ok (.array ref) := Context.below_of_slot hfp h
  rw [Execution.step_of_opcode (Effects.nextIs_iff.1 hnext)]
  exact Execution.bind_of_ok (Execution.view_of_ok hcached)

/-- A frame that keeps no array has to make one. -/
theorem State.step_of_unset (hnext : s.context.nextIs .pushArgumentArray)
    (hfp : 1 ≤ s.context.fp) (h : s.context.stack[s.context.fp - 1]? = some .unset) :
    Execution.step host nested s =
      (Execution.makeArgumentArray >>= fun array => Execution.push array >>= fun _ => pure .next :
        Execution Outcome) (s.past .pushArgumentArray s.context.stack) := by
  have hcached : Context.argumentArray (s.past .pushArgumentArray s.context.stack).context =
      .ok .unset := Context.below_of_slot hfp h
  rw [Execution.step_of_opcode (Effects.nextIs_iff.1 hnext)]
  exact Execution.bind_of_ok (Execution.view_of_ok hcached)

/-- The array is made of the arguments, and the frame keeps it. -/
theorem State.step_of_uncached (hnext : s.context.nextIs .pushArgumentArray)
    (hfp : 1 ≤ s.context.fp) (h : s.context.stack[s.context.fp - 1]? = some .unset)
    (harguments : s.context.arguments = .ok arguments) :
    Execution.step host nested s =
      (Execution.push (.array s.fresh) >>= fun _ => pure .next : Execution Outcome)
        ((s.make (Execution.argumentEntries arguments)).past .pushArgumentArray
          (s.context.stack.setIfInBounds (s.context.fp - 1) (.array s.fresh))) := by
  have hlist : Context.arguments (s.past .pushArgumentArray s.context.stack).context =
      .ok arguments := harguments
  have hlt := (Array.getElem?_eq_some_iff.1 h).1
  have hset : Context.setArgumentArray (.array s.fresh)
      (s.past .pushArgumentArray s.context.stack).context =
      .ok () { (s.past .pushArgumentArray s.context.stack).context with
        stack := s.context.stack.setIfInBounds (s.context.fp - 1) (.array s.fresh) } :=
    if_pos ⟨hfp, hlt⟩
  have hmade : Execution.makeArgumentArray (s.past .pushArgumentArray s.context.stack) =
      .ok (.array s.fresh) ((s.make (Execution.argumentEntries arguments)).past .pushArgumentArray
        (s.context.stack.setIfInBounds (s.context.fp - 1) (.array s.fresh))) := by
    unfold Execution.makeArgumentArray
    rw [Execution.bind_of_ok (Execution.view_of_ok hlist)]
    exact Execution.bind_of_ok (Execution.transition_of_ok hset)
  rw [State.step_of_unset hnext hfp h]
  exact Execution.bind_of_ok hmade

/-- An array is made only of arguments that can be listed. -/
theorem State.arguments_of_step (hnext : s.context.nextIs .pushArgumentArray)
    (hfp : 1 ≤ s.context.fp) (h : s.context.stack[s.context.fp - 1]? = some .unset)
    (hstep : Execution.step host nested s = .ok outcome t) :
    ∃ arguments, s.context.arguments = .ok arguments := by
  cases hlist : s.context.arguments with
  | ok arguments => exact ⟨arguments, rfl⟩
  | error fault =>
    have hmissing : Execution.view Context.arguments (s.past .pushArgumentArray s.context.stack) =
        .error (.fault fault) (s.past .pushArgumentArray s.context.stack) :=
      Execution.view_of_error hlist
    have hmade : Execution.makeArgumentArray (s.past .pushArgumentArray s.context.stack) =
        .error (.fault fault) (s.past .pushArgumentArray s.context.stack) :=
      Execution.bind_of_error hmissing
    rw [State.step_of_unset hnext hfp h, Execution.bind_of_error hmade] at hstep
    cases hstep

/-- The frame keeps what it gives: what it kept before, or a new container. -/
theorem FrameChain.array_of_step (h : FrameChain False root s.context.stack s.context.fp fps)
    (hnext : s.context.nextIs .pushArgumentArray)
    (hstep : Execution.step host nested s = .ok outcome t) :
    ∃ ref, t.context.stack.back? = some (.array ref) ∧ t.Caches s.context.fp ref ∧
      (s.Caches s.context.fp ref ∨
        s.context.stack[s.context.fp - 1]? = some .unset ∧ ref = s.fresh ∧ t.world.Has ref) := by
  obtain ⟨f, hfp, hf⟩ := h.newest
  have hbase := hf.base_le
  have hsize := h.fp_le
  have hcache := hf.cache
  rw [hfp] at hbase hcache
  have hslot : s.context.fp - 1 < s.context.stack.size := by omega
  rcases hcache with hunset | ⟨ref, hcached⟩
  · obtain ⟨values, hvalues⟩ := State.arguments_of_step hnext (by omega) hunset hstep
    rw [State.step_of_uncached hnext (by omega) hunset hvalues] at hstep
    have hroom := Execution.room_of_push_next hstep
    rw [Execution.push_next_of_room _ hroom] at hstep
    cases hstep
    refine ⟨s.fresh, Array.back?_push, ?_, .inr ⟨hunset, rfl, ?_⟩⟩
    · have hbelow : s.context.fp - 1 <
          (s.context.stack.setIfInBounds (s.context.fp - 1) (.array s.fresh)).size := by
        rw [Array.size_setIfInBounds]
        exact hslot
      exact (push_below _ hbelow).trans (Array.getElem?_setIfInBounds_self_of_lt hslot)
    · exact Nat.le_of_eq (State.size_make s _).symm
  · rw [State.step_of_cached hnext (by omega) hcached] at hstep
    have hroom := Execution.room_of_push_next hstep
    rw [Execution.push_next_of_room _ hroom] at hstep
    cases hstep
    exact ⟨ref, Array.back?_push, (push_below _ hslot).trans hcached, .inl hcached⟩

/-! ## Single instructions -/

theorem Context.Returns.not_pushArgumentArray {c : Context} (h : c.Returns) :
    ¬ c.nextIs .pushArgumentArray := by
  intro hnext
  have hslot := Effects.nextIs_iff.1 hnext
  rcases h with hend | hreturn | hreturn
  · cases hslot.symm.trans hend
  · cases hslot.symm.trans (Effects.nextIs_iff.1 hreturn)
  · cases hslot.symm.trans (Effects.nextIs_iff.1 hreturn)

theorem FrameChain.fp_mem {stack : Array Value} {fp : Nat}
    (h : FrameChain False root stack fp fps) : fp ∈ fps := by
  cases h with
  | root _ => exact List.mem_cons_self
  | inner _ _ _ _ _ => exact List.mem_cons_self

theorem FrameChain.four_le {stack : Array Value} {fp : Nat}
    (h : FrameChain False root stack fp fps) : ∀ g ∈ fps, 4 ≤ g := by
  induction h with
  | root hroot =>
    have hbase := hroot.base_le
    intro g hg
    cases List.mem_singleton.1 hg
    omega
  | inner hf _ _ _ _ ih =>
    have hbase := hf.base_le
    intro g hg
    rcases List.mem_cons.1 hg with rfl | hg
    · omega
    · exact ih g hg

/-- What an instruction makes of the slots of frames that have not returned. -/
structure State.Carries (s t : State) (fps fps' : List Nat) : Prop where
  /-- A frame goes away only when it returns. -/
  live : ∀ g ∈ fps, g ∈ fps' ∨ g = s.context.fp ∧ s.context.Returns
  slots : ∀ g ∈ fps, g ∈ fps' → ∀ i, i + 1 < g → t.context.stack[i]? = s.context.stack[i]?
  keeps : ∀ g ∈ fps, g ∈ fps' → ∀ ref, s.Caches g ref → t.Caches g ref
  /-- A container that a frame keeps it has kept before, or it is new. -/
  origin : ∀ g ∈ fps', ∀ ref, t.Caches g ref → g ∈ fps ∧ s.Caches g ref ∨
    g = s.context.fp ∧ s.context.nextIs .pushArgumentArray ∧ ref = s.fresh ∧ t.world.Has ref

theorem State.Evolves.live {fps' : List Nat} (h : s.Evolves t fps fps') {g : Nat} (hg : g ∈ fps) :
    g ∈ fps' ∨ g = s.context.fp ∧ s.context.Returns := by
  cases h with
  | stays _ => exact .inl hg
  | enters new _ _ => exact .inl (List.mem_append_right new hg)
  | returns hreturns _ =>
    rcases List.mem_cons.1 hg with rfl | hmem
    · exact .inr ⟨rfl, hreturns⟩
    · exact .inl hmem

/-- New frames keep no arrays yet. -/
theorem State.Evolves.mem_of_caches {fps' : List Nat} (h : s.Evolves t fps fps') {g : Nat}
    (hg : g ∈ fps') (hcaches : t.Caches g ref) : g ∈ fps := by
  cases h with
  | stays _ => exact hg
  | enters new _ hnew =>
    rcases List.mem_append.1 hg with hmem | hmem
    · cases Eq.trans (Eq.symm hcaches) (hnew g hmem).2
    · exact hmem
  | returns _ _ => exact List.mem_cons_of_mem _ hg

theorem FrameChain.carries (h : FrameChain False root s.context.stack s.context.fp fps)
    (horderly : s.context.Orderly)
    (hleaves : s.context.Returns → s.context.fp = root.fp → root.returnTo = none)
    (hstep : Execution.step host nested s = .ok outcome t) (hgoes : outcome ≠ .done) :
    ∃ fps', FrameChain False root t.context.stack t.context.fp fps' ∧ s.Carries t fps fps' := by
  obtain ⟨fps', hchain, hevolves⟩ := h.step horderly hleaves hstep hgoes
  obtain ⟨hsorted, hle, -⟩ := h.decreasing
  -- where no array was asked for, the slot is as it was
  have hother : ∀ g ∈ fps, g ∈ fps' →
      ¬ (g = s.context.fp ∧ s.context.nextIs .pushArgumentArray) →
      t.context.stack[g - 1]? = s.context.stack[g - 1]? := by
    intro g hg hg' hnot
    have hfour := h.four_le g hg
    exact hevolves.kept hg hg' hle hsorted (by omega) fun hlast hnext =>
      hnot ⟨by omega, hnext⟩
  refine ⟨fps', hchain, fun g hg => hevolves.live hg, ?_, ?_, ?_⟩
  · intro g hg hg' i hi
    have hgle := hle g hg
    exact hevolves.kept hg hg' hle hsorted (by omega) fun hlast => by omega
  · intro g hg hg' ref hcaches
    by_cases hhere : g = s.context.fp ∧ s.context.nextIs .pushArgumentArray
    · obtain ⟨rfl, hnext⟩ := hhere
      obtain ⟨ref', -, hafter, hbefore | ⟨hunset, -⟩⟩ := h.array_of_step hnext hstep
      · rwa [hcaches.unique hbefore]
      · cases Eq.trans (Eq.symm hcaches) hunset
    · exact (hother g hg hg' hhere).trans hcaches
  · intro g hg' ref hcaches
    have hg := hevolves.mem_of_caches hg' hcaches
    by_cases hhere : g = s.context.fp ∧ s.context.nextIs .pushArgumentArray
    · obtain ⟨rfl, hnext⟩ := hhere
      obtain ⟨ref', -, hafter, hbefore | ⟨-, hfresh, hhas⟩⟩ := h.array_of_step hnext hstep
      · exact .inl ⟨hg, hcaches.unique hafter ▸ hbefore⟩
      · have hsame := hcaches.unique hafter
        exact .inr ⟨rfl, hnext, hsame.trans hfresh, hsame ▸ hhas⟩
    · exact .inl ⟨hg, (hother g hg hg' hhere).symm.trans hcaches⟩

/-! ## All frames -/

/-- The containers that frames keep exist, and so do those that they have given. -/
structure Ledger (root : Frame) (past : List (State × State)) (s : State) (fps : List Nat) :
    Prop where
  chain : FrameChain False root s.context.stack s.context.fp fps
  exist : ∀ g ∈ fps, ∀ ref, s.Caches g ref → s.world.Has ref
  given : ∀ k ∈ past, k.1.context.nextIs .pushArgumentArray →
    ∃ ref, k.2.context.stack.back? = some (.array ref) ∧ s.world.Has ref

namespace Ledger

variable {past : List (State × State)}

theorem step (h : Ledger root past s fps) (hhost : host.Retains) (horderly : s.context.Orderly)
    (hleaves : s.context.Returns → s.context.fp = root.fp → root.returnTo = none)
    (hstep : host.Steps s outcome t) (hgoes : outcome ≠ .done) :
    ∃ fps', Ledger root ((s, t) :: past) t fps' ∧ s.Carries t fps fps' := by
  have hretains := hstep.retains hhost
  obtain ⟨fuel, hstep⟩ := hstep
  obtain ⟨fps', hchain, hcarries⟩ := h.chain.carries horderly hleaves hstep hgoes
  have hexist : ∀ g ∈ fps', ∀ ref, t.Caches g ref → t.world.Has ref := by
    intro g hg ref hcaches
    rcases hcarries.origin g hg ref hcaches with ⟨hmem, hbefore⟩ | ⟨-, -, -, hhas⟩
    · exact (h.exist g hmem ref hbefore).retained hretains
    · exact hhas
  refine ⟨fps', ⟨hchain, hexist, fun k hk hnext => ?_⟩, hcarries⟩
  rcases List.mem_cons.1 hk with rfl | hk
  · obtain ⟨ref, hback, hcaches, hold | ⟨-, -, hhas⟩⟩ := h.chain.array_of_step hnext hstep
    · exact ⟨ref, hback, (h.exist _ h.chain.fp_mem ref hold).retained hretains⟩
    · exact ⟨ref, hback, hhas⟩
  · obtain ⟨ref, hback, hhas⟩ := h.given k hk hnext
    exact ⟨ref, hback, hhas.retained hretains⟩

theorem slot_of_pause (h : Ledger root past s fps) (hpause : Host.OrderlyPause s t) {g : Nat}
    (hg : g ∈ fps) {i : Nat} (hi : i < g) : t.context.stack[i]? = s.context.stack[i]? := by
  have hle := h.chain.decreasing.2.1 g hg
  exact hpause.kept.2 i (by omega)

theorem caches_of_pause (h : Ledger root past s fps) (hpause : Host.OrderlyPause s t) {g : Nat}
    (hg : g ∈ fps) : t.Caches g ref ↔ s.Caches g ref := by
  have hfour := h.chain.four_le g hg
  rw [State.Caches, State.Caches, h.slot_of_pause hpause hg (by omega)]

theorem pause (h : Ledger root past s fps) (hpause : Host.OrderlyPause s t) :
    Ledger root past t fps where
  chain := by
    rw [hpause.kept.1]
    exact h.chain.agree hpause.kept.2
  exist g hg ref hcaches :=
    (h.exist g hg ref ((h.caches_of_pause hpause hg).1 hcaches)).retained hpause.1
  given k hk hnext := by
    obtain ⟨ref, hback, hhas⟩ := h.given k hk hnext
    exact ⟨ref, hback, hhas.retained hpause.1⟩

end Ledger

/-- In every run of orderly instructions from the start of a macro, what frames keep exists. -/
theorem Host.Trail.ledger {past : List (State × State)}
    (h : host.Trail Context.Orderly OrderlyPause s past t) (hhost : host.Retains)
    (hroot : root.returnTo = none) (hs : Ledger root [] s fps) :
    ∃ fps', Ledger root past t fps' := by
  induction h with
  | start => exact ⟨fps, hs⟩
  | step _ horderly hstep hgoes ih =>
    obtain ⟨fps', hledger⟩ := ih
    obtain ⟨fps'', hnext, -⟩ := hledger.step hhost horderly (fun _ _ => hroot) hstep hgoes
    exact ⟨fps'', hnext⟩
  | pause _ hpause ih =>
    obtain ⟨fps', hledger⟩ := ih
    exact ⟨fps', hledger.pause hpause⟩

/-! ## One frame -/

/-- A frame since it was entered in the state `t`.  What it keeps is a container that was made since
then, and no other frame keeps that one. -/
structure Tenure (root : Frame) (t : State) (since : List (State × State)) (s : State)
    (fps : List Nat) : Prop extends Ledger root since s fps where
  live : t.context.fp ∈ fps
  retained : t.world.Retains s.world
  slots : ∀ i, i + 1 < t.context.fp → s.context.stack[i]? = t.context.stack[i]?
  made : ∀ ref, s.Caches t.context.fp ref → t.world.store.containers.size ≤ ref.index ∧
    ∃ k ∈ since, k.1.context.fp = t.context.fp ∧ k.1.context.nextIs .pushArgumentArray
  apart : ∀ g ∈ fps, g ≠ t.context.fp → ∀ ref, s.Caches g ref → ¬ s.Caches t.context.fp ref
  /-- It keeps what it has given, and no other frame has given that. -/
  own : ∀ k ∈ since, k.1.context.nextIs .pushArgumentArray →
    ∀ ref, k.2.context.stack.back? = some (.array ref) →
      (s.Caches t.context.fp ref ↔ k.1.context.fp = t.context.fp)

namespace Tenure

variable {past since : List (State × State)}

/-- When a frame is entered it keeps nothing. -/
theorem start (h : Ledger root past t fps)
    (hunset : t.context.stack[t.context.fp - 1]? = some .unset) : Tenure root t [] t fps := by
  have hnone : ∀ ref, ¬ t.Caches t.context.fp ref := by
    intro ref hcaches
    cases Eq.trans (Eq.symm hcaches) hunset
  exact {
    chain := h.chain
    exist := h.exist
    given := fun k hk => absurd hk List.not_mem_nil
    live := h.chain.fp_mem
    retained := .refl _
    slots := fun _ _ => rfl
    made := fun ref hcaches => absurd hcaches (hnone ref)
    apart := fun _ _ _ ref _ => hnone ref
    own := fun k hk => absurd hk List.not_mem_nil }

theorem step (h : Tenure root t since s fps) (hhost : host.Retains)
    (hroot : root.returnTo = none) (hwithin : s.context.Within t.context.fp)
    (hstep : host.Steps s outcome u) (hgoes : outcome ≠ .done) :
    ∃ fps', Tenure root t ((s, u) :: since) u fps' := by
  obtain ⟨fps', hledger, hcarries⟩ :=
    h.toLedger.step hhost hwithin.orderly (fun _ _ => hroot) hstep hgoes
  have hretains := hstep.retains hhost
  have hlive : t.context.fp ∈ fps' := by
    rcases hcarries.live _ h.live with hmem | ⟨hfp, hreturns⟩
    · exact hmem
    · exact absurd hfp.symm (hwithin.stays hreturns)
  -- a container that exists already is not the new one
  have hold : ∀ g ∈ fps', ∀ ref, s.world.Has ref → u.Caches g ref → g ∈ fps ∧ s.Caches g ref := by
    intro g hg ref hhas hcaches
    rcases hcarries.origin g hg ref hcaches with hbefore | ⟨-, -, rfl, -⟩
    · exact hbefore
    · exact absurd hhas (Nat.lt_irrefl _)
  have hapart : ∀ g ∈ fps', g ≠ t.context.fp → ∀ ref, u.Caches g ref →
      ¬ u.Caches t.context.fp ref := by
    intro g hg hne ref hcaches hcaches'
    rcases hcarries.origin g hg ref hcaches with ⟨hmem, hbefore⟩ | ⟨hfp, -, hfresh, -⟩
    · have hhas := h.exist g hmem ref hbefore
      exact h.apart g hmem hne ref hbefore (hold _ hlive ref hhas hcaches').2
    · rcases hcarries.origin _ hlive ref hcaches' with ⟨-, hbefore'⟩ | ⟨hfp', -⟩
      · have hhas := h.exist _ h.live ref hbefore'
        rw [hfresh] at hhas
        exact absurd hhas (Nat.lt_irrefl _)
      · exact hne (hfp.trans hfp'.symm)
  refine ⟨fps', hledger, hlive, h.retained.trans hretains, ?_, ?_, hapart, ?_⟩
  · intro i hi
    exact (hcarries.slots _ h.live hlive i hi).trans (h.slots i hi)
  · intro ref hcaches
    rcases hcarries.origin _ hlive ref hcaches with ⟨-, hbefore⟩ | ⟨hfp, hnext, rfl, -⟩
    · obtain ⟨hmade, k, hk, hasked⟩ := h.made ref hbefore
      exact ⟨hmade, k, List.mem_cons_of_mem _ hk, hasked⟩
    · exact ⟨h.retained, (s, u), List.mem_cons_self, hfp.symm, hnext⟩
  · intro k hk hnext ref hback
    rcases List.mem_cons.1 hk with rfl | hk
    · -- the frame that was asked keeps what it has given
      obtain ⟨fuel, hstep⟩ := hstep
      obtain ⟨ref', hback', hcaches, -⟩ := h.chain.array_of_step hnext hstep
      cases Eq.trans (Eq.symm hback) hback'
      refine ⟨fun hown => ?_, fun hfp => hfp ▸ hcaches⟩
      refine Decidable.byContradiction fun hne => ?_
      rcases hcarries.live _ h.chain.fp_mem with hmem | ⟨-, hreturns⟩
      · exact hapart _ hmem hne ref hcaches hown
      · exact hreturns.not_pushArgumentArray hnext
    · obtain ⟨ref', hback', hhas⟩ := h.given k hk hnext
      cases Eq.trans (Eq.symm hback) hback'
      refine Iff.trans ⟨fun hcaches => (hold _ hlive ref hhas hcaches).2, ?_⟩
        (h.own k hk hnext ref hback)
      exact hcarries.keeps _ h.live hlive ref

theorem pause (h : Tenure root t since s fps) (hpause : Host.OrderlyPause s u) :
    Tenure root t since u fps := by
  have hcaches : ∀ g ∈ fps, ∀ ref, u.Caches g ref ↔ s.Caches g ref :=
    fun g hg ref => h.toLedger.caches_of_pause hpause hg
  exact {
    toLedger := h.toLedger.pause hpause
    live := h.live
    retained := h.retained.trans hpause.1
    slots := fun i hi =>
      (h.toLedger.slot_of_pause hpause h.live (by omega)).trans (h.slots i hi)
    made := fun ref hu => h.made ref ((hcaches _ h.live ref).1 hu)
    apart := fun g hg hne ref hu hu' =>
      h.apart g hg hne ref ((hcaches g hg ref).1 hu) ((hcaches _ h.live ref).1 hu')
    own := fun k hk hnext ref hback =>
      (hcaches _ h.live ref).trans (h.own k hk hnext ref hback) }

end Tenure

/-- A frame is followed from the state in which it was entered until it returns. -/
theorem Host.Trail.tenure {since : List (State × State)}
    (h : host.Trail (Context.Within t.context.fp) OrderlyPause t since u) (hhost : host.Retains)
    (hroot : root.returnTo = none) (ht : Tenure root t [] t fps) :
    ∃ fps', Tenure root t since u fps' := by
  induction h with
  | start => exact ⟨fps, ht⟩
  | step _ hwithin hstep hgoes ih =>
    obtain ⟨fps', htenure⟩ := ih
    exact htenure.step hhost hroot hwithin hstep hgoes
  | pause _ hpause ih =>
    obtain ⟨fps', htenure⟩ := ih
    exact ⟨fps', htenure.pause hpause⟩

end MacroMachine
