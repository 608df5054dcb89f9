import MacroMachine.Proofs.EnteredPrograms

/-!
# Reads of symbols

To read a symbol is to put its value on the stack.  Most values are there to be found: in the frame,
in the symbol, among the arguments.  The value of a computed variable comes from a routine, and a
routine may enter programs before it gives the value.

*Lost values.*  Such a program gets a frame on the very stack that the value is about to be put on.
The value then lands in that frame and goes away with it.  When the code goes on after the read, the
stack is as it was before, and the value is lost (`Host.read_loses_value`).  This is the only way to
lose it: a read delivers its value if and only if no program was entered.
-/

namespace MacroMachine

/-- The programs that are entered when a symbol is read: those that the routine of a computed
variable enters. -/
def State.readEnters (s : State) (host : Host) (nested : Runner) (id : SymbolId) :
    List ProgramRef :=
  match s.world.symbols.get? id with
  | some ⟨_, .property, .native routine⟩ =>
    (host.routine routine []).entered host nested false
      (s.serving .pushSymbol 2 s.context.stack routine [])
  | _ => []

/-- The value of a symbol. -/
inductive State.Gives (host : Host) (nested : Runner) (s : State) (id : SymbolId) : Value → Prop
    where
  | frameLocal {symbol : Symbol} {offset : Nat} {v : Value} :
      s.world.symbols.get? id = some symbol → symbol.kind = .frameLocal →
      symbol.frameOffset = .ok offset → s.context.localValue offset = .ok v →
      Gives host nested s id v
  | stored {symbol : Symbol} : s.world.symbols.get? id = some symbol →
      symbol.kind = .global ∨ symbol.kind = .constant → Gives host nested s id symbol.value
  | argumentCount {symbol : Symbol} {count : Nat} : s.world.symbols.get? id = some symbol →
      symbol.kind = .argument → symbol.value = .int SymbolTable.argumentCountIndex →
      s.context.argumentCount = .ok count → Gives host nested s id (.ofNat count)
  | argument {symbol : Symbol} {index : Int32} {v : Value} :
      s.world.symbols.get? id = some symbol → symbol.kind = .argument →
      symbol.value = .int index → 0 ≤ index.toInt →
      s.context.argument index.toInt.toNat = .ok v → Gives host nested s id v
  /-- The value of a computed variable is the one that its routine finishes with. -/
  | property {symbol : Symbol} {routine : NativeId} {v : Value} {preempting : Bool} {t : State} :
      s.world.symbols.get? id = some symbol → symbol.kind = .property →
      symbol.value = .native routine →
      Execution.perform host nested false (host.routine routine [])
        (s.serving .pushSymbol 2 s.context.stack routine []) = .ok (.ok v, preempting) t →
      Gives host nested s id v

section Values

variable {host : Host} {nested : Runner} {s t : State} {id : SymbolId} {v : Value}

theorem Value.eq_of_asInt {n : Int32} (h : v.asInt = .ok n) : v = .int n := by
  cases v with
  | int m =>
    cases h
    rfl
  | _ => cases h

/-- The value of an argument symbol. -/
theorem Execution.argumentValue_eq_ok {index : Int32} (h : argumentValue id index s = .ok v t) :
    t = s ∧ (index = SymbolTable.argumentCountIndex ∧
        (∃ count, s.context.argumentCount = .ok count ∧ v = .ofNat count) ∨
      0 ≤ index.toInt ∧ s.context.argument index.toInt.toNat = .ok v) := by
  obtain ⟨count, s₁, hview, h₁⟩ := bind_eq_ok h
  obtain ⟨rfl, hcount⟩ := view_eq_ok hview
  split at h₁
  · next hindex =>
    cases h₁
    exact ⟨rfl, .inl ⟨hindex, count, hcount, rfl⟩⟩
  · split at h₁
    · cases h₁
    · next hrange =>
      obtain ⟨rfl, hargument⟩ := view_eq_ok h₁
      exact ⟨rfl, .inr ⟨by omega, hargument⟩⟩

theorem State.readEnters_of_kind {symbol : Symbol} (hget : s.world.symbols.get? id = some symbol)
    (hkind : symbol.kind ≠ .property) : s.readEnters host nested id = [] := by
  obtain ⟨name, kind, value⟩ := symbol
  unfold State.readEnters
  rw [hget]
  cases kind with
  | property => exact absurd rfl hkind
  | _ => rfl

/-- When the value of a symbol is known, the programs that were entered wait. -/
theorem State.gives_of_symbolValue
    (h : Execution.symbolValue (Execution.invoke host nested) id s.reading = .ok v t) :
    s.Gives host nested id v ∧
      t.context.SamePlace (s.reading.context.queued (s.readEnters host nested id).reverse) ∧
      (s.readEnters host nested id ≠ [] →
        (s.reading.context.queued (s.readEnters host nested id).reverse).stack.size ≤
          s.context.limit) := by
  obtain ⟨symbol, s₁, hsymbol, h₁⟩ := Execution.bind_eq_ok h
  obtain ⟨rfl, hfound⟩ := Execution.symbol_eq_ok hsymbol
  have hget : s.world.symbols.get? id = some symbol := hfound
  -- without a routine the state is that at the beginning
  have hstill : symbol.kind ≠ .property → t = s.reading →
      t.context.SamePlace (s.reading.context.queued (s.readEnters host nested id).reverse) ∧
      (s.readEnters host nested id ≠ [] →
        (s.reading.context.queued (s.readEnters host nested id).reverse).stack.size ≤
          s.context.limit) := by
    rintro hkind rfl
    rw [State.readEnters_of_kind hget hkind]
    exact ⟨⟨rfl, rfl, rfl, rfl⟩, fun hne => absurd rfl hne⟩
  cases hkind : symbol.kind with
  | frameLocal =>
    simp only [hkind] at h₁
    obtain ⟨offset, s₂, hofExcept, hview⟩ := Execution.bind_eq_ok h₁
    obtain ⟨rfl, hoffset⟩ := Execution.ofExcept_eq_ok hofExcept
    obtain ⟨rfl, hvalue⟩ := Execution.view_eq_ok hview
    exact ⟨.frameLocal hget hkind hoffset hvalue, hstill (by simp [hkind]) rfl⟩
  | global =>
    simp only [hkind] at h₁
    cases h₁
    exact ⟨.stored hget (.inl hkind), hstill (by simp [hkind]) rfl⟩
  | constant =>
    simp only [hkind] at h₁
    cases h₁
    exact ⟨.stored hget (.inr hkind), hstill (by simp [hkind]) rfl⟩
  | argument =>
    simp only [hkind] at h₁
    obtain ⟨index, s₂, hconvert, hargument⟩ := Execution.bind_eq_ok h₁
    obtain ⟨rfl, hindex⟩ := Execution.convert_eq_ok hconvert
    have hvalue := Value.eq_of_asInt hindex
    obtain ⟨rfl, ⟨rfl, count, hcount, rfl⟩ | ⟨hnonneg, hv⟩⟩ :=
      Execution.argumentValue_eq_ok hargument
    · exact ⟨.argumentCount hget hkind hvalue hcount, hstill (by simp [hkind]) rfl⟩
    · exact ⟨.argument hget hkind hvalue hnonneg hv, hstill (by simp [hkind]) rfl⟩
  | property =>
    simp only [hkind] at h₁
    cases hvalue : symbol.value with
    | native routine =>
      simp only [hvalue] at h₁
      obtain ⟨⟨v', preempting⟩, s₂, hinvoke, hend⟩ := Execution.bind_eq_ok h₁
      cases hend
      have hperform := Execution.invoke_eq_ok_iff.1 hinvoke
      have henters : s.readEnters host nested id = (host.routine routine []).entered host nested
          false (s.serving .pushSymbol 2 s.context.stack routine []) := by
        obtain ⟨name, kind, value⟩ := symbol
        cases hkind
        cases hvalue
        unfold State.readEnters
        rw [hget]
      rw [henters]
      exact ⟨.property hget hkind hvalue hperform, Execution.perform_samePlace hperform,
        Execution.perform_fits hperform⟩
    | _ =>
      simp only [hvalue] at h₁
      cases h₁
  | native =>
    simp only [hkind] at h₁
    cases h₁
  | function =>
    simp only [hkind] at h₁
    cases h₁

end Values

/-! ## Coming back -/

section Back

variable {host : Host} {nested : Runner} {t u : State} {root : Frame} {old stack : Array Value}
  {counted : Prop} {bound limit fp : Nat} {c : Context} {outcome : Outcome}

theorem Chained.push (v : Value) (h : Chained counted root old bound stack limit fp)
    (hroom : stack.size < limit) : Chained counted root old bound (stack.push v) limit fp :=
  (frameDiscipline counted root old bound).push v h hroom

/-- Programs that wait are chained down to the one that was entered first. -/
theorem Context.chained_queued {first : ProgramRef} {others : List ProgramRef}
    (hfits : (c.queued (others ++ [first])).stack.size ≤ c.limit) :
    Chained False c.overlay c.stack c.limit (c.queued (others ++ [first])).stack c.limit
      (c.queued (others ++ [first])).fp := by
  induction others with
  | nil => exact chained_entered hfits
  | cons p others ih =>
    rw [List.cons_append, size_queued_cons] at hfits
    have hchained := ih (by omega)
    exact hchained.call _ hchained.fp_le False.elim (by omega)

/-- A return from the root leads back to its caller, whose stack is as it was unless a marker was
passed. -/
theorem Chained.back_of_return {back : CodeAddress}
    (h : Chained counted root old bound t.context.stack t.context.limit t.context.fp)
    (hfp : t.context.fp = root.fp) (hfew : root.count < 2147483648)
    (hreturn : root.returnTo = some back) (horderly : t.context.Orderly)
    (hreturns : t.context.Returns)
    (hstep : Execution.step host nested t = .ok outcome u) :
    u.context.fp = root.caller.getD 0 ∧
      (u.context.pc = back → u.context.stack = old.extract 0 root.base) := by
  obtain ⟨value, w, c, heq, -, hchained, hcfp, -⟩ :=
    h.step_of_return host nested horderly hreturns
  rw [heq, hchained.leave_eq value (hcfp.trans hfp) hfew hreturn] at hstep
  cases hmarker : (root.caughtUp old back c).nextIs .fetchResult with
  | false =>
    rw [Execution.bind_of_ok (handOver_of_unmarked value hmarker)] at hstep
    cases hstep
    exact ⟨rfl, fun _ => rfl⟩
  | true =>
    cases value with
    | some v =>
      rw [Execution.bind_of_ok (handOver_of_marked v hmarker hchained.room)] at hstep
      cases hstep
      refine ⟨rfl, fun hpc => ?_⟩
      have hindex : back.index + 1 = back.index := congrArg CodeAddress.index hpc
      omega
    | none =>
      rw [Execution.bind_of_error (handOver_of_missing hmarker)] at hstep
      cases hstep

/-- Programs were entered over a context.  Once its frame is the current one again, the stack is as
it was. -/
theorem Chained.stack_of_back
    (h : Chained False c.overlay c.stack c.limit t.context.stack t.context.limit t.context.fp)
    (hc : c.fp ≤ c.stack.size)
    (hrun : host.Runs (fun d => d.Orderly ∧ d.fp ≠ c.fp) Host.AnyWorld t u)
    (hfp : u.context.fp = c.fp) (hpc : u.context.pc = c.pc) : u.context.stack = c.stack := by
  have hinside :
      Chained False c.overlay c.stack c.limit u.context.stack u.context.limit u.context.fp ∨
      u.context.fp = c.fp ∧ (u.context.pc = c.pc → u.context.stack = c.stack) := by
    clear hfp hpc
    induction hrun with
    | start => exact .inl h
    | @step v u outcome _ hallowed hstep hgoes ih =>
      rcases ih with hchained | ⟨hback, -⟩
      · by_cases hleaves : v.context.Returns ∧ v.context.fp = c.overlay.fp
        · obtain ⟨fuel, hstep⟩ := hstep
          obtain ⟨hfp, hstack⟩ :=
            hchained.back_of_return hleaves.2 (Nat.zero_lt_succ _) rfl hallowed.1 hleaves.1 hstep
          exact .inr ⟨hfp, fun hpc => (hstack hpc).trans Array.extract_size⟩
        · have hwithin : v.context.Within c.overlay.fp :=
            ⟨hallowed.1, fun hreturns hfp => hleaves ⟨hreturns, hfp⟩⟩
          refine .inl (hchained.runs (fun _ hd => ⟨hd.orderly, fun hreturns hfp => ?_⟩)
            (.step .start hwithin hstep hgoes))
          exact absurd hfp (hd.stays hreturns)
      · exact absurd hback hallowed.2
    | pause _ hpause ih =>
      rw [hpause]
      exact ih
  rcases hinside with hchained | ⟨-, hstack⟩
  · obtain ⟨fps, hchain⟩ := hchained.chain
    have hroot : c.stack.size + 4 ≤ u.context.fp := hchain.root_le
    omega
  · exact hstack hpc

/-- A macro that is allowed no instruction stays where it is. -/
theorem Host.Runs.context_of_stuck {allowed : Context → Prop} (h : ¬ allowed t.context)
    (hrun : host.Runs allowed Host.AnyWorld t u) : u.context = t.context := by
  induction hrun with
  | start => rfl
  | step _ hallowed _ _ ih => exact absurd (ih ▸ hallowed) h
  | pause _ hpause ih => exact Eq.trans hpause ih

end Back

/-! ## Reads -/

section Reads

variable {host : Host} {nested : Runner} {s t : State} {id : SymbolId} {outcome : Outcome}

namespace Sample

/-- A host with two routines that give the same value; the second one enters a program before. -/
def computingHost : Host :=
  ⟨⟨32, none⟩, fun routine _ =>
    if routine.index = 0 then .finish (.ok (.int 5))
    else .enter quitter fun _ => .finish (.ok (.int 5))⟩

/-- A macro that returns the value of a symbol. -/
def reader (id : SymbolId) : ProgramRef :=
  ⟨0, ⟨#[.op .pushSymbol, .symbol id, .op .returnValue], []⟩⟩

/-- The world of the macro, in which a variable is computed by each of the routines. -/
def computedWorld (dispatches : Array Dispatch) (calls : Array NativeCall) : World :=
  { World.ofSymbols ⟨#[⟨"plain", .property, .native ⟨0⟩⟩, ⟨"busy", .property, .native ⟨1⟩⟩],
      [⟨1⟩, ⟨0⟩], [], 0, 0⟩ with dispatches, calls }

/-- The macro at its start. -/
def readStart (id : SymbolId) : State :=
  ⟨computedWorld #[] #[], ⟨#[.address none, .frame none, .int 0, .unset], 32, 4, ⟨reader id, 0⟩,
    none, none⟩⟩

/-- The macro after the read of the first variable. -/
def plainRead : State :=
  ⟨computedWorld #[⟨.pushSymbol, 0, 4⟩] #[⟨⟨0⟩, [], .empty⟩],
    ⟨#[.address none, .frame none, .int 0, .unset, .int 5], 32, 4, ⟨reader ⟨0⟩, 2⟩, none, none⟩⟩

/-- The macro after the read of the second variable, in the program that was entered. -/
def busyRead : State :=
  ⟨computedWorld #[⟨.pushSymbol, 0, 4⟩] #[⟨⟨1⟩, [], .empty⟩],
    ⟨#[.address none, .frame none, .int 0, .unset, .address (some ⟨reader ⟨1⟩, 2⟩),
      .frame (some 4), .int 0, .unset, .int 5], 32, 8, ⟨quitter, 0⟩, none, none⟩⟩

/-- The macro back after the read of the second variable. -/
def busyBack : State :=
  ⟨computedWorld #[⟨.pushSymbol, 0, 4⟩, ⟨.returnNothing, 0, 9⟩] #[⟨⟨1⟩, [], .empty⟩],
    ⟨#[.address none, .frame none, .int 0, .unset], 32, 4, ⟨reader ⟨1⟩, 2⟩, none, none⟩⟩

theorem readStart_performs (nested : Runner) : Execution.perform computingHost nested false
    (computingHost.routine ⟨1⟩ []) ((readStart ⟨1⟩).serving .pushSymbol 2
      (readStart ⟨1⟩).context.stack ⟨1⟩ []) =
    .ok (.ok (.int 5), false) (busyRead.withStack (busyRead.context.stack.extract 0 8)) := by
  show Execution.perform computingHost nested false (.enter quitter _) _ = _
  simp only [Execution.perform]
  rfl

theorem readStart_step (nested : Runner) :
    Execution.step computingHost nested (readStart ⟨1⟩) = .ok .next busyRead := by
  have hread : (readStart ⟨1⟩).Reads ⟨1⟩ := ⟨rfl, rfl⟩
  have hinvoke : Execution.invoke computingHost nested ⟨1⟩ ⟨1⟩ [] (readStart ⟨1⟩).reading =
      .ok (.int 5, false) (busyRead.withStack (busyRead.context.stack.extract 0 8)) :=
    Execution.invoke_eq_ok_iff.2 (readStart_performs nested)
  exact hread.step_eq_ok_iff.2 ⟨.int 5, _, Execution.bind_of_ok hinvoke, rfl, by decide, rfl, rfl⟩

end Sample

/-- A read delivers the value of its symbol if and only if no program was entered to find it.  Take
a read that succeeds, and any run from there that is back in the frame of the read for the first
time, at the next instruction, and whose instructions have found their operands in the current
frame.  If no program was entered, the stack is the one before the read and the value of the symbol
on top.  If one was, the value is lost, and the stack is the one before the read. -/
theorem Host.read_delivers_iff (hread : s.Reads id) (horderly : s.context.Orderly)
    (hstep : Execution.step host nested s = .ok outcome t) :
    ∃ v, s.Gives host nested id v ∧ outcome = .next ∧
      (s.readEnters host nested id = [] →
        t.context.fp = s.context.fp ∧ t.context.pc = s.context.pc.advance 2) ∧
      ∀ u, host.Runs (fun c => c.Orderly ∧ c.fp ≠ s.context.fp) Host.AnyWorld t u →
        u.context.fp = s.context.fp → u.context.pc = s.context.pc.advance 2 →
        (u.context.stack = s.context.stack.push v ↔ s.readEnters host nested id = []) ∧
        (s.readEnters host nested id ≠ [] → u.context.stack = s.context.stack) := by
  obtain ⟨v, t', hvalue, -, hroom, rfl, rfl⟩ := hread.step_eq_ok_iff.1 hstep
  obtain ⟨hgives, hplace, hfits⟩ := State.gives_of_symbolValue hvalue
  refine ⟨v, hgives, rfl, ?_, fun u hrun hfp hpc => ?_⟩
  · intro hnone
    rw [hnone] at hplace
    exact ⟨hplace.fp, hplace.pc⟩
  · cases hprograms : s.readEnters host nested id with
    | nil =>
      rw [hprograms] at hplace
      have hstays : u.context = { t'.context with stack := t'.context.stack.push v } :=
        hrun.context_of_stuck fun hallowed => hallowed.2 hplace.fp
      have hstack : u.context.stack = s.context.stack.push v := by
        rw [hstays]
        exact congrArg (·.push v) hplace.stack
      exact ⟨⟨fun _ => rfl, fun _ => hstack⟩, fun hne => absurd rfl hne⟩
    | cons first more =>
      rw [hprograms, List.reverse_cons] at hplace hfits
      have hdemand : s.context.fp + s.context.demand ≤ s.context.stack.size := horderly
      have hchained : Chained False s.reading.context.overlay s.context.stack s.context.limit
          (t'.context.stack.push v) t'.context.limit t'.context.fp := by
        refine Chained.push v ?_ hroom
        rw [hplace.stack, hplace.limit, hplace.fp, Context.limit_queued]
        exact Context.chained_queued (hfits (List.cons_ne_nil _ _))
      have hstack : u.context.stack = s.context.stack :=
        Chained.stack_of_back (c := s.reading.context)
          (t := t'.withStack (t'.context.stack.push v)) hchained
          (show s.context.fp ≤ s.context.stack.size by omega) hrun hfp hpc
      refine ⟨⟨fun hpush => ?_, fun hnil => by cases hnil⟩, fun _ => hstack⟩
      have hsize := congrArg Array.size (hstack.symm.trans hpush)
      rw [Array.size_push] at hsize
      omega

/-- A computed variable whose routine enters no program. -/
theorem Host.read_delivers_iff_of_plain : (Sample.readStart ⟨0⟩).Reads ⟨0⟩ ∧
    (Sample.readStart ⟨0⟩).context.Orderly ∧
    Execution.step Sample.computingHost (Sample.computingHost.resume 0) (Sample.readStart ⟨0⟩) =
      .ok .next Sample.plainRead ∧
    ∃ v, (Sample.readStart ⟨0⟩).Gives Sample.computingHost (Sample.computingHost.resume 0) ⟨0⟩ v ∧
      Sample.plainRead.context.stack = (Sample.readStart ⟨0⟩).context.stack.push v := by
  have hread : (Sample.readStart ⟨0⟩).Reads ⟨0⟩ := ⟨rfl, rfl⟩
  have horderly : (Sample.readStart ⟨0⟩).context.Orderly := by decide
  have hstep : Execution.step Sample.computingHost (Sample.computingHost.resume 0)
      (Sample.readStart ⟨0⟩) = .ok .next Sample.plainRead := rfl
  obtain ⟨v, hgives, -, -, hback⟩ := Host.read_delivers_iff hread horderly hstep
  exact ⟨hread, horderly, hstep, v, hgives, (hback _ .start rfl rfl).1.2 rfl⟩

/-- A computed variable whose routine enters a program, which returns at once.  The value of the
variable is 5, but back at the next instruction it is not on the stack, and the macro that should
return it returns nothing. -/
theorem Host.read_loses_value : (Sample.readStart ⟨1⟩).Reads ⟨1⟩ ∧
    (Sample.readStart ⟨1⟩).Gives Sample.computingHost (Sample.computingHost.resume 0) ⟨1⟩
      (.int 5) ∧
    Execution.step Sample.computingHost (Sample.computingHost.resume 0) (Sample.readStart ⟨1⟩) =
      .ok .next Sample.busyRead ∧
    Sample.computingHost.Runs (fun c => c.Orderly ∧ c.fp ≠ 4) Host.AnyWorld Sample.busyRead
      Sample.busyBack ∧
    Sample.busyBack.context.fp = (Sample.readStart ⟨1⟩).context.fp ∧
    Sample.busyBack.context.pc = (Sample.readStart ⟨1⟩).context.pc.advance 2 ∧
    Sample.busyBack.context.stack ≠ (Sample.readStart ⟨1⟩).context.stack.push (.int 5) ∧
    ∃ w, Sample.computingHost.execute 3 (Sample.computedWorld #[] #[]) (Sample.reader ⟨1⟩) []
      none = some (.done .unset, w) := by
  have hgives : (Sample.readStart ⟨1⟩).Gives Sample.computingHost (Sample.computingHost.resume 0)
      ⟨1⟩ (.int 5) := .property rfl rfl rfl (Sample.readStart_performs _)
  have hback : Sample.computingHost.Steps Sample.busyRead .next Sample.busyBack := ⟨0, rfl⟩
  refine ⟨⟨rfl, rfl⟩, hgives, Sample.readStart_step _,
    .step .start ⟨by decide, by decide⟩ hback (by decide), rfl, rfl, by decide, ?_⟩
  have hstart : Context.start (Sample.reader ⟨1⟩) [] Sample.computingHost.limits.stackSize none =
      .ok (Sample.readStart ⟨1⟩).context := rfl
  have hfirst : Execution.step Sample.computingHost (Sample.computingHost.runSlice 2 0)
      ⟨Sample.computedWorld #[] #[], (Sample.readStart ⟨1⟩).context⟩ =
      .ok .next Sample.busyRead := Sample.readStart_step _
  refine ⟨Sample.computedWorld #[⟨.pushSymbol, 0, 4⟩, ⟨.returnNothing, 0, 9⟩,
    ⟨.returnValue, 2, 4⟩] #[⟨⟨1⟩, [], .empty⟩], ?_⟩
  simp only [Host.execute, hstart, Host.resume]
  rw [Host.runSlice, hfirst]
  rfl

end Reads

end MacroMachine
