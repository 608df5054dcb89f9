import MacroMachine.Proofs.Locals
import MacroMachine.Proofs.Routines

/-!
# Programs that a routine leaves to run

A routine can enter programs on its caller's behalf.  It does not wait for them: each gets a frame
on top of the one before, and when the routine is over, the caller finds itself at the beginning of
the program that was entered last.  The programs then run one after the other, and only the return
of the first one leads back to the call.

*Phases.*  While the programs run, the one whose turn it is has the frame that is the root of the
chain of frames (`Chained`).  Its return goes to the beginning of the program below it, where no
marker asks for a value, so that program begins as it was entered (`Host.Works`).

*The last return.*  The frame of the program that was entered first lies where the arguments of the
routine lay, and it saves the place after the call.  So it hands over its value as a function does
that was called there without arguments (`Host.HandsBack`).
-/

namespace MacroMachine

/-! ## Contexts that wait -/

/-- The program is about to run, without arguments and with local variables that have no values. -/
structure Context.Begins (p : ProgramRef) (c : Context) : Prop where
  pc : c.pc = ⟨p, 0⟩
  arguments : c.argumentCount = .ok 0
  locals : ∀ i < p.program.locals.length, c.localValue i = .ok .unset
  size : c.stack.size = c.fp + p.program.locals.length

/-- The frame of a program that is entered without arguments. -/
def Context.overlay (c : Context) : Frame :=
  ⟨c.stack.size + 4, 0, some c.pc, some c.fp⟩

namespace Context

variable {c c' : Context} {p : ProgramRef} {rest : List ProgramRef}

theorem overlay_on_entered : c.overlay.On False (c.entered p).stack :=
  Frame.on_withFrame (some c.pc) (some c.fp) (Nat.zero_le _) False.elim

/-- A program that was just entered is the root of a chain of frames. -/
theorem chained_entered (hfits : (c.entered p).stack.size ≤ c.limit) :
    Chained False c.overlay c.stack c.limit (c.entered p).stack c.limit (c.entered p).fp where
  limit_eq := rfl
  fits := hfits
  chain := ⟨_, .root overlay_on_entered⟩
  below _ hi := withFrame_below _ _ _ _ hi

/-- A program that was just entered begins. -/
theorem begins_entered : (c.entered p).Begins p where
  pc := rfl
  arguments := by
    have hslot : (c.entered p).stack[(c.entered p).fp - 2]? = some (.int 0) :=
      withFrame_slot c.stack (some c.pc) (some c.fp) 0 _ (i := 2) (by decide)
    exact argumentCount_of_slot (Nat.le_add_left 2 (c.stack.size + 2)) hslot (by decide)
  locals i hi := by
    have hslot : (c.entered p).stack[(c.entered p).fp + i]? = some .unset :=
      withFrame_local _ _ _ _ (Nat.le_add_right _ i) (Nat.add_lt_add_left hi _)
    rw [localValue, hslot]
  size := size_withFrame _ _ _ _

/-- The program whose turn it is is the root of a chain of frames when it begins. -/
theorem SamePlace.chained (h : c'.SamePlace (c.queued (p :: rest)))
    (hfits : (c.queued (p :: rest)).stack.size ≤ c.limit) :
    Chained False (c.queued rest).overlay (c.queued rest).stack c.limit c'.stack c'.limit
      c'.fp := by
  have hlimit : (c.queued rest).limit = c.limit := limit_queued
  rw [← hlimit] at hfits ⊢
  rw [h.stack, h.limit, h.fp]
  exact chained_entered hfits

/-- Programs that wait need no more room than all of them together. -/
theorem size_queued_of_suffix {queue : List ProgramRef} (h : rest <:+ queue) :
    (c.queued rest).stack.size ≤ (c.queued queue).stack.size := by
  obtain ⟨before, rfl⟩ := h
  rw [queued_append]
  exact size_le_queued

end Context

/-! ## Returns -/

section Returns

variable {host : Host} {nested : Runner} {s u : State} {counted : Prop} {root : Frame}
  {old : Array Value} {bound count : Nat} {id : SymbolId}

/-- A return takes its value off the stack, if it has one, and leaves the frame, whose chain is
intact. -/
theorem Chained.step_of_return (host : Host) (nested : Runner)
    (h : Chained counted root old bound u.context.stack u.context.limit u.context.fp)
    (horderly : u.context.Orderly) (hreturns : u.context.Returns) :
    ∃ value w c, Execution.step host nested u = Execution.leave value ⟨w, c⟩ ∧
      w.symbols = u.world.symbols ∧ Chained counted root old bound c.stack c.limit c.fp ∧
      c.fp = u.context.fp ∧
      (u.context.nextIs .returnValue = true ∧
          (∃ v, value = some v ∧ u.context.stack.back? = some v) ∨
        u.context.nextIs .returnValue = false ∧ value = none) := by
  cases hvalue : u.context.nextIs .returnValue with
  | true =>
    obtain ⟨v, hv, hsize⟩ := horderly.pop hvalue
    have hpopped := h.shrink hsize
    rw [Array.extract_eq_pop rfl] at hpopped
    exact ⟨some v, _, _, Context.step_of_returnValue hvalue hv, rfl, hpopped, rfl,
      .inl ⟨rfl, v, rfl, hv⟩⟩
  | false =>
    obtain ⟨pc, heq⟩ := hreturns.step_eq hvalue
    exact ⟨none, _, _, heq, rfl, h, rfl, .inr ⟨rfl, rfl⟩⟩

/-- The next instruction of `u`, a return, hands back to the call of `s`, which names a symbol and
has arguments to be removed.  The value is delivered if there is a marker after the call, and
without a value there the return fails. -/
inductive Host.HandsBack (host : Host) (nested : Runner) (s : State) (id : SymbolId) (count : Nat)
    (u : State) : Prop where
  | dropped {after : State} : s.backAddress.slot? ≠ some (.op .fetchResult) →
      Execution.step host nested u = .ok .next after → after.context.BackAt s count none →
      HandsBack host nested s id count u
  | delivered {v : Value} {after : State} : s.backAddress.slot? = some (.op .fetchResult) →
      u.context.nextIs .returnValue = true → u.context.stack.back? = some v →
      Execution.step host nested u = .ok .next after → after.context.BackAt s count (some v) →
      HandsBack host nested s id count u
  | missing {after : State} : s.backAddress.slot? = some (.op .fetchResult) →
      u.context.nextIs .returnValue = false →
      Execution.step host nested u =
        .error (.fault (.missingResult (u.world.symbols.name id))) after →
      HandsBack host nested s id count u

/-- A return from the frame of a call hands back to it. -/
theorem Chained.handsBack (host : Host) (nested : Runner)
    (h : Chained counted (s.callFrame count) s.context.stack bound u.context.stack u.context.limit
      u.context.fp) (hfp : u.context.fp = (s.callFrame count).fp) (hfew : count < 2147483648)
    (hname : (s.context.pc.advance 1).slot? = some (.symbol id)) (horderly : u.context.Orderly)
    (hreturns : u.context.Returns) : host.HandsBack nested s id count u := by
  obtain ⟨value, w, c, hstep, hsymbols, hchained, hcfp, hvalue⟩ :=
    h.step_of_return host nested horderly hreturns
  have hroot : c.fp = (s.callFrame count).fp := hcfp.trans hfp
  by_cases hmarker : s.backAddress.slot? = some (.op .fetchResult)
  · rcases hvalue with ⟨hnext, v, rfl, hv⟩ | ⟨hnext, rfl⟩
    · obtain ⟨after, heq, hback⟩ := Chained.leave_marked (w := w) c v hchained hroot hfew hmarker
      exact .delivered hmarker hnext hv (hstep.trans heq) hback
    · obtain ⟨after, heq⟩ := hchained.leave_without_value (w := w) hname hroot hfew hmarker
      rw [hsymbols] at heq
      exact .missing hmarker hnext (hstep.trans heq)
  · obtain ⟨after, heq, hback⟩ :=
      Chained.leave_unmarked (w := w) c value hchained hroot hfew hmarker
    exact .dropped hmarker (hstep.trans heq) hback

end Returns

/-! ## Phases -/

/-- A run of programs that wait over a context, in the order of the queue.  The programs that have
not returned yet are listed, the one whose turn it is first. -/
inductive Host.Works (host : Host) (c : Context) (queue : List ProgramRef) :
    List ProgramRef → State → Prop where
  | begin {t : State} : t.context.SamePlace (c.queued queue) → Works host c queue queue t
  | step {left : List ProgramRef} {t u : State} {outcome : Outcome} : Works host c queue left t →
      t.context.Within (c.queued left).fp → host.Steps t outcome u → outcome ≠ .done →
      Works host c queue left u
  | pause {left : List ProgramRef} {t u : State} : Works host c queue left t →
      Host.AnyWorld t u → Works host c queue left u
  /-- A program returns, and the one below it begins as it was entered. -/
  | turn {p q : ProgramRef} {rest : List ProgramRef} {t u : State} :
      Works host c queue (p :: q :: rest) t → t.context.Orderly → t.context.Returns →
      t.context.fp = (c.queued (p :: q :: rest)).fp → host.Steps t .next u →
      u.context.SamePlace (c.queued (q :: rest)) → Works host c queue (q :: rest) u

section Phases

variable {host : Host} {nested : Runner} {c : Context} {queue rest : List ProgramRef}
  {p q : ProgramRef} {t u : State} {outcome : Outcome}

/-- The return of a program leads to the beginning of the one below it. -/
theorem samePlace_of_return
    (h : Chained False (c.queued (q :: rest)).overlay (c.queued (q :: rest)).stack c.limit
      t.context.stack t.context.limit t.context.fp)
    (hfp : t.context.fp = (c.queued (q :: rest)).overlay.fp)
    (hmarker : (⟨q, 0⟩ : CodeAddress).slot? ≠ some (.op .fetchResult))
    (horderly : t.context.Orderly)
    (hreturns : t.context.Returns) (hstep : Execution.step host nested t = .ok outcome u) :
    outcome = .next ∧ u.context.SamePlace (c.queued (q :: rest)) := by
  obtain ⟨value, w, c', heq, -, hchained, hcfp, -⟩ := h.step_of_return host nested horderly hreturns
  have hnext : Context.nextIs .fetchResult ((c.queued (q :: rest)).overlay.caughtUp
      (c.queued (q :: rest)).stack (c.queued (q :: rest)).pc c') = false := by
    simp only [Context.nextIs, Frame.caughtUp, beq_eq_false_iff_ne]
    exact hmarker
  have hnone : (c.queued (q :: rest)).overlay.count < 2147483648 := Nat.zero_lt_succ _
  rw [heq, hchained.leave_eq value (hcfp.trans hfp) hnone rfl,
    Execution.bind_of_ok (handOver_of_unmarked value hnext)] at hstep
  cases hstep
  exact ⟨rfl, Array.extract_size, rfl, rfl, hchained.limit_eq.trans Context.limit_queued.symm⟩

/-- As long as the frame of the last program in the queue has not been left, the programs run one
after the other. -/
theorem Host.works_of_runs (hbegin : t.context.SamePlace (c.queued queue)) (hne : queue ≠ [])
    (hfits : (c.queued queue).stack.size ≤ c.limit)
    (hmarkers : ∀ p ∈ queue, (⟨p, 0⟩ : CodeAddress).slot? ≠ some (.op .fetchResult))
    (hrun : host.Runs (Context.Within c.overlay.fp) Host.AnyWorld t u) :
    ∃ p rest, host.Works c queue (p :: rest) u ∧ p :: rest <:+ queue ∧
      Chained False (c.queued rest).overlay (c.queued rest).stack c.limit u.context.stack
        u.context.limit u.context.fp := by
  induction hrun with
  | start =>
    obtain ⟨p, rest, rfl⟩ := List.exists_cons_of_ne_nil hne
    exact ⟨p, rest, .begin hbegin, List.suffix_refl _, hbegin.chained hfits⟩
  | @step v u outcome _ hallowed hstep hgoes ih =>
    obtain ⟨p, rest, hworks, hsuffix, hchained⟩ := ih
    by_cases hleaves : v.context.Returns ∧ v.context.fp = (c.queued rest).overlay.fp
    · -- the program whose turn it is returns, so it is not the last one
      cases rest with
      | nil => exact absurd hleaves.2 (hallowed.stays hleaves.1)
      | cons q rest =>
        have hsuffix' : q :: rest <:+ queue := (List.suffix_cons p _).trans hsuffix
        obtain ⟨fuel, hstep'⟩ := hstep
        obtain ⟨rfl, hplace⟩ := samePlace_of_return hchained hleaves.2
          (hmarkers q (hsuffix'.mem (List.mem_cons_self ..))) hallowed.orderly hleaves.1 hstep'
        have hroom := Nat.le_trans (Context.size_queued_of_suffix hsuffix') hfits
        exact ⟨q, rest, .turn hworks hallowed.orderly hleaves.1 hleaves.2 ⟨fuel, hstep'⟩ hplace,
          hsuffix', hplace.chained hroom⟩
    · have hwithin : v.context.Within (c.queued rest).overlay.fp :=
        ⟨hallowed.orderly, fun hreturns hfp => hleaves ⟨hreturns, hfp⟩⟩
      refine ⟨p, rest, .step hworks hwithin hstep hgoes, hsuffix, ?_⟩
      exact hchained.runs
        (fun _ hc => ⟨hc.orderly, fun hreturns hfp => absurd hfp (hc.stays hreturns)⟩)
        (.step .start hwithin hstep hgoes)
  | pause _ hpause ih =>
    obtain ⟨p, rest, hworks, hsuffix, hchained⟩ := ih
    refine ⟨p, rest, .pause hworks hpause, hsuffix, ?_⟩
    rw [hpause]
    exact hchained

end Phases

/-! ## The call of the routine -/

/-- The context of the caller while a routine runs, with this much of the stack left. -/
def State.caller (s : State) (base : Array Value) : Context :=
  { s.context with stack := base, pc := s.backAddress }

section Calls

variable {host : Host} {nested : Runner} {s t u : State} {id : SymbolId} {routine : NativeId}
  {arguments : List Value} {base : Array Value} {r : Value} {preempting : Bool}
  {first : ProgramRef} {more : List ProgramRef}

/-- Back at a call without arguments, on a stack that the arguments of another call were taken off.
-/
theorem Context.BackAt.withArguments {delivered : Option Value} {c : Context}
    (h : c.BackAt (s.withStack base) 0 delivered)
    (hstack : s.context.stack = base ++ arguments.toArray) :
    c.BackAt s arguments.length delivered := by
  refine ⟨?_, h.fp, h.pc⟩
  have hbase : s.context.stack.extract 0 (s.context.stack.size - arguments.length) = base := by
    rw [hstack]
    simp
  rw [hbase, h.stack]
  exact congrArg (· ++ _) Array.extract_size

theorem Host.HandsBack.withArguments (h : host.HandsBack nested (s.withStack base) id 0 u)
    (hstack : s.context.stack = base ++ arguments.toArray) :
    host.HandsBack nested s id arguments.length u := by
  cases h with
  | dropped hmarker hstep hback => exact .dropped hmarker hstep (hback.withArguments hstack)
  | delivered hmarker hnext hv hstep hback =>
    exact .delivered hmarker hnext hv hstep (hback.withArguments hstack)
  | missing hmarker hnext hstep => exact .missing hmarker hnext hstep

/-- In the frame of the program that was entered first, no other program is left. -/
theorem eq_first_of_suffix {p : ProgramRef} {rest : List ProgramRef} {c : Context} {fp : Nat}
    (hsuffix : p :: rest <:+ (first :: more).reverse) (hroot : (c.queued rest).overlay.fp ≤ fp)
    (hfp : fp = c.overlay.fp) : p :: rest = [first] := by
  cases rest with
  | nil =>
    obtain ⟨before, heq⟩ := hsuffix
    rw [List.reverse_cons] at heq
    exact (List.append_inj' heq rfl).2
  | cons q rest =>
    have hsize : c.stack.size ≤ (c.queued rest).stack.size := Context.size_le_queued
    have hle : (c.queued (q :: rest)).stack.size + 4 ≤ fp := hroot
    rw [Context.size_queued_cons] at hle
    have hfp : fp = c.stack.size + 4 := hfp
    omega

namespace Sample

/-- A macro that calls a routine with one argument and returns its result. -/
def delegator : ProgramRef :=
  ⟨0, ⟨#[.op .call, .symbol ⟨0⟩, .immediate 1, .op .fetchResult, .op .returnValue], []⟩⟩

/-- A host with a routine that enters two programs and gives a result. -/
def delegatingHost : Host :=
  ⟨⟨32, none⟩, fun _ _ =>
    .enter countArguments fun _ => .enter quitter fun _ => .finish (.ok (.int 9))⟩

/-- The macro at a place in the code, with what it has executed and what lies over the bookkeeping
of its outermost frame. -/
def delegating (dispatches : Array Dispatch) (calls : Array NativeCall) (above : Array Value)
    (fp : Nat) (pc : CodeAddress) : State :=
  ⟨{ World.ofSymbols ⟨#[⟨"both", .native, .native ⟨0⟩⟩], [⟨0⟩], [], 0, 0⟩ with
      dispatches, calls },
    ⟨#[.address none, .frame none, .int 0, .unset] ++ above, 32, fp, pc, none, none⟩⟩

/-- The macro about to call the routine. -/
def delegation : State :=
  delegating #[] #[] #[.text "x"] 4 ⟨delegator, 0⟩

/-- The macro with both programs entered. -/
def delegated : State :=
  delegating #[⟨.call, 0, 5⟩] #[⟨⟨0⟩, [.text "x"], .empty⟩]
    #[.address (some ⟨delegator, 3⟩), .frame (some 4), .int 0, .unset,
      .address (some ⟨countArguments, 0⟩), .frame (some 8), .int 0, .unset]
    12 ⟨quitter, 0⟩

/-- The macro in the program entered first, with its operands. -/
def deputy (dispatches : Array Dispatch) (operands : Array Value) (position : Nat) : State :=
  delegating (#[⟨.call, 0, 5⟩, ⟨.returnNothing, 0, 12⟩] ++ dispatches)
    #[⟨⟨0⟩, [.text "x"], .empty⟩]
    (#[.address (some ⟨delegator, 3⟩), .frame (some 4), .int 0, .unset] ++ operands)
    8 ⟨countArguments, position⟩

theorem delegated_runs : delegatingHost.Runs (Context.Within 8) Host.AnyWorld delegated
    (deputy #[⟨.pushArgumentCount, 0, 8⟩] #[.int 0] 1) := by
  have hquits : delegatingHost.Steps delegated .next (deputy #[] #[] 0) := ⟨0, rfl⟩
  have hcounts : delegatingHost.Steps (deputy #[] #[] 0) .next
      (deputy #[⟨.pushArgumentCount, 0, 8⟩] #[.int 0] 1) := ⟨0, rfl⟩
  exact .step (.step .start ⟨by decide, by decide⟩ hquits (by decide))
    ⟨by decide, by decide⟩ hcounts (by decide)

end Sample

/-- Programs that a routine has entered run in turn.  Take a call of a routine that enters programs,
none of which begins with a marker, and gives a result.  The call removes its arguments and drops
the result, and it goes on at the beginning of the program that was entered last.  As long as no
instruction leaves the frame of the program entered first, and all find their operands in the
current frame, the programs run from the last one to the first; each begins without arguments and
with local variables that have no values, and what it returns to the next one is dropped.

The program entered first has the frame that it would have if it had been called as a function
without arguments, and its return hands back to the call as from there: the caller's stack is as it
was without the arguments of the routine, and the value returned is added if a marker asks for it.
-/
theorem Host.entered_programs_run_in_turn (hcall : s.CallsRoutine id routine arguments base)
    (hreturns : Execution.perform host nested false (host.routine routine arguments)
      (s.serving .call 3 base routine arguments) = .ok (.ok r, preempting) t)
    (hprograms : s.enters host nested routine arguments base = first :: more)
    (hmarkers : ∀ p ∈ first :: more, (⟨p, 0⟩ : CodeAddress).slot? ≠ some (.op .fetchResult)) :
    Execution.step host nested s = .ok (if preempting then .preempt else .next) t ∧
    t.context.SamePlace ((s.caller base).queued (first :: more).reverse) ∧
    (∀ p rest, ((s.caller base).queued (p :: rest)).Begins p) ∧
    Context.enter 0 first (s.caller base) = .ok () ((s.caller base).queued [first]) ∧
    ∀ u, host.Runs (Context.Within (base.size + 4)) Host.AnyWorld t u →
      (∃ p rest, host.Works (s.caller base) (first :: more).reverse (p :: rest) u) ∧
      (u.context.fp = base.size + 4 →
        host.Works (s.caller base) (first :: more).reverse [first] u ∧
        (u.context.Orderly → u.context.Returns →
          ∀ nested', host.HandsBack nested' s id arguments.length u)) := by
  have hentered : (host.routine routine arguments).entered host nested false
      (s.serving .call 3 base routine arguments) = first :: more := hprograms
  have hplace : t.context.SamePlace ((s.caller base).queued (first :: more).reverse) :=
    hentered ▸ Execution.perform_samePlace hreturns
  have hfits : ((s.caller base).queued (first :: more).reverse).stack.size ≤
      (s.caller base).limit :=
    hentered ▸ Execution.perform_fits hreturns (hentered ▸ List.cons_ne_nil _ _)
  have hne : first :: more ≠ [] := List.cons_ne_nil _ _
  have hmarkers' : ∀ p ∈ (first :: more).reverse,
      (⟨p, 0⟩ : CodeAddress).slot? ≠ some (.op .fetchResult) :=
    fun p hp => hmarkers p (List.mem_reverse.1 hp)
  refine ⟨?_, hplace, fun p rest => Context.begins_entered, ?_, fun u hrun => ?_⟩
  · have hunmarked : t.context.nextIs .fetchResult = false := by
      obtain ⟨p, rest, heq⟩ := List.exists_cons_of_ne_nil (List.reverse_ne_nil_iff.2 hne)
      rw [heq] at hplace hmarkers'
      rw [Context.nextIs, hplace.pc]
      exact beq_eq_false_iff_ne.2 (hmarkers' p (List.mem_cons_self ..))
    exact hcall.step_eq_ok_iff.2 ⟨r, preempting, t, hreturns,
      Execution.deliver_eq_ok_iff.2 (.inl ⟨hunmarked, rfl⟩), rfl⟩
  · apply Context.enter_zero_of_room
    have hsuffix : [first] <:+ (first :: more).reverse := by
      rw [List.reverse_cons]
      exact List.suffix_append _ _
    have hsize := Nat.le_trans (Context.size_queued_of_suffix hsuffix) hfits
    rw [Context.size_queued_cons, Nat.add_assoc] at hsize
    exact hsize
  · obtain ⟨p, rest, hworks, hsuffix, hchained⟩ := Host.works_of_runs hplace
      (List.reverse_ne_nil_iff.2 hne) hfits hmarkers' hrun
    refine ⟨⟨p, rest, hworks⟩, fun hfp => ?_⟩
    obtain ⟨fps, hchain⟩ := hchained.chain
    obtain ⟨rfl, rfl⟩ := List.cons.inj (eq_first_of_suffix hsuffix hchain.root_le hfp)
    refine ⟨hworks, fun horderly hreturns nested' => ?_⟩
    have hback : host.HandsBack nested' (s.withStack base) id 0 u :=
      Chained.handsBack host nested' hchained hfp (by decide) hcall.name horderly hreturns
    exact hback.withArguments hcall.stack

/-- Two programs, the second of which runs first; the value of the first takes the place of the
routine's own result. -/
theorem Host.entered_programs_run_in_turn_at_delegation :
    Sample.delegation.CallsRoutine ⟨0⟩ ⟨0⟩ [.text "x"]
      #[.address none, .frame none, .int 0, .unset] ∧
    Execution.step Sample.delegatingHost (Sample.delegatingHost.resume 0) Sample.delegation =
      .ok .next Sample.delegated ∧
    ∃ after, Execution.step Sample.delegatingHost (Sample.delegatingHost.resume 0)
        (Sample.deputy #[⟨.pushArgumentCount, 0, 8⟩] #[.int 0] 1) = .ok .next after ∧
      after.context.BackAt Sample.delegation 1 (some (.int 0)) := by
  have hcall : Sample.delegation.CallsRoutine ⟨0⟩ ⟨0⟩ [.text "x"]
      #[.address none, .frame none, .int 0, .unset] :=
    ⟨rfl, rfl, ⟨1, rfl, rfl⟩, ⟨_, rfl, rfl, rfl⟩, rfl⟩
  have hreturns : Execution.perform Sample.delegatingHost (Sample.delegatingHost.resume 0) false
      (Sample.delegatingHost.routine ⟨0⟩ [.text "x"]) (Sample.delegation.serving .call 3
        #[.address none, .frame none, .int 0, .unset] ⟨0⟩ [.text "x"]) =
      .ok (.ok (.int 9), false) Sample.delegated := by
    simp only [Sample.delegatingHost, Execution.perform]
    rfl
  have hprograms : Sample.delegation.enters Sample.delegatingHost
      (Sample.delegatingHost.resume 0) ⟨0⟩ [.text "x"]
      #[.address none, .frame none, .int 0, .unset] =
      [Sample.countArguments, Sample.quitter] := rfl
  obtain ⟨hstep, -, -, -, hruns⟩ :=
    Host.entered_programs_run_in_turn hcall hreturns hprograms (by decide)
  obtain ⟨-, hfirst⟩ := hruns _ Sample.delegated_runs
  refine ⟨hcall, hstep, ?_⟩
  cases (hfirst rfl).2 (by decide) (by decide) (Sample.delegatingHost.resume 0) with
  | dropped hmarker _ _ => exact absurd rfl hmarker
  | delivered _ _ hv hreturn hback =>
    cases hv
    exact ⟨_, hreturn, hback⟩
  | missing _ hnothing _ => cases hnothing

end Calls

end MacroMachine
