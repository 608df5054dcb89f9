import MacroMachine.Proofs.DemoAssembly
import MacroMachine.Proofs.Locals
import MacroMachine.Proofs.Routines

/-!
# Sums of ranges

The demonstration macro adds the numbers from one up to its limit, and this module follows it from
its first instruction to its last one.

*Pieces.*  Each piece of the code has a lemma that says how many instructions it takes and where it
leads (`opening_run`, `condition_run`, `body_run`, `storing_run`, `element_run`, `printing_run`).

*The loop.*  After `j` rounds the total is the sum of the numbers up to `j` and the counter is
`j + 1`, both wrapped.  A limit below the largest number leaves the counter room to go past it, and
so the loop ends (`loop_run`).

*The result.*  A run of a known number of instructions takes a known number of slices under every
instruction limit, which gives the main result: the macro can be assembled, prints the sum once and
returns it (`sums_numbers_up_to_limit`).
-/

namespace MacroMachine

/-- A state with one more call of a routine on record. -/
def State.served (home : State) (call : NativeCall) : State :=
  { home with world := { home.world with calls := home.world.calls.push call } }

/-- A routine that gives some result is called, and the result is not wanted. -/
theorem State.Stands.callRoutine {host : Host} {home s : State} {position : Nat}
    {locals : Nat → Value} {store : Store} {id : SymbolId} {routine : NativeId} {count : Int64}
    {result : Value} (operands arguments : List Value)
    (h : home.Stands position locals (operands ++ arguments) store s)
    (hcode : (home.context.pc.jump position).Holds [.op .call, .symbol id, .immediate count])
    (hnext : (home.context.pc.jump (position + 3)).slot? ≠ some (.op .fetchResult))
    (hid : home.world.symbols.Holds id .native (.native routine))
    (hcount : count.toInt = arguments.length)
    (hroutine : host.routine routine arguments = .finish (.ok result)) :
    ∃ t, host.Moves s t ∧
      (home.served ⟨routine, arguments, store⟩).Stands (position + 3) locals operands store t := by
  obtain @⟨base, dispatches, hframes, hfits⟩ := h
  obtain ⟨name, hget⟩ := hid
  have happend : base ++ (operands ++ arguments).toArray =
      base ++ operands.toArray ++ arguments.toArray := by simp
  have hcalls : State.CallsRoutine
      (home.moved position (base ++ (operands ++ arguments).toArray) store dispatches) id routine
      arguments (base ++ operands.toArray) :=
    ⟨hcode.1, hcode.2.1, ⟨count, hcode.2.2.1, hcount⟩, ⟨_, hget, rfl, rfl⟩, happend⟩
  have hlength : operands.length ≤ (operands ++ arguments).length := by simp
  let after := (home.served ⟨routine, arguments, store⟩).moved (position + 3)
    (base ++ operands.toArray) store
    (Execution.recorded .call
      (home.moved position (base ++ (operands ++ arguments).toArray) store dispatches)).dispatches
  have hunwanted : after.context.nextIs .fetchResult = false := beq_eq_false_iff_ne.2 hnext
  refine ⟨after, fun nested => hcalls.step_eq_ok_iff.2 ⟨result, false, after, ?_, ?_, rfl⟩, ?_⟩
  · rw [hroutine]
    rfl
  · exact Execution.deliver_eq_ok_iff.2 (.inl ⟨hunwanted, rfl⟩)
  · refine .intro _ ⟨hframes.size, hframes.below, hframes.locals⟩ ?_
    exact Nat.le_trans (Nat.add_le_add_left hlength _) hfits

namespace Demo

/-! ## The run -/

/-- A macro whose code is that of the demonstration, with its symbols and variables and with room
for its operands. -/
structure Prepared (n : Names) (limit : Int32) (routine : NativeId) (home : State) : Prop where
  opening : (home.context.pc.jump 0).Holds n.opening
  condition : (home.context.pc.jump 8).Holds n.condition
  exit : home.context.pc.program.program.BranchesTo 14 29
  body : (home.context.pc.jump 15).Holds n.body
  back : home.context.pc.program.program.BranchesTo 28 8
  storing : (home.context.pc.jump 29).Holds n.storing
  printing : (home.context.pc.jump 38).Holds n.printing
  returning : (home.context.pc.jump 50).Holds n.returning
  size : home.context.pc.program.program.size = 58
  declared : n.Declared limit routine home.world.symbols
  total : home.HasLocal n.total 0
  counter : home.HasLocal n.i 1
  table : home.HasLocal n.table 2
  room : home.context.stack.size + 3 ≤ home.context.limit

/-- The calls on record do not matter to what is still to be done. -/
theorem Prepared.served {n : Names} {limit : Int32} {routine : NativeId} {home : State}
    (h : Prepared n limit routine home) (call : NativeCall) :
    Prepared n limit routine (home.served call) :=
  ⟨h.opening, h.condition, h.exit, h.body, h.back, h.storing, h.printing, h.returning, h.size,
    h.declared, ⟨h.total.places, h.total.lt⟩, ⟨h.counter.places, h.counter.lt⟩,
    ⟨h.table.places, h.table.lt⟩, h.room⟩

theorem Prepared.fits {n : Names} {limit : Int32} {routine : NativeId} {home : State}
    (h : Prepared n limit routine home) {count : Nat} (hcount : count ≤ 3) :
    home.context.stack.size + count ≤ home.context.limit :=
  Nat.le_trans (Nat.add_le_add_left hcount _) h.room

theorem Assembled.prepared {n : Names} {limit : Int32} {routine : NativeId} {home : State}
    (h : Assembled n limit routine home.context.pc.program.program home.world.symbols)
    (hroom : home.context.stack.size + 3 ≤ home.context.limit) :
    Prepared n limit routine home := by
  have hslots : (home.context.pc.jump 0).Holds n.slots := by
    refine CodeAddress.holds_of_getElem? fun j hj => ?_
    show home.context.pc.program.program.code[0 + j]? = _
    rw [h.code, Nat.zero_add]
    exact List.getElem?_toArray
  obtain ⟨hslots, hreturning⟩ := CodeAddress.holds_append_iff.1 hslots
  obtain ⟨hslots, hprinting⟩ := CodeAddress.holds_append_iff.1 hslots
  obtain ⟨hslots, hstoring⟩ := CodeAddress.holds_append_iff.1 hslots
  obtain ⟨hslots, hback⟩ := CodeAddress.holds_append_iff.1 hslots
  obtain ⟨hslots, hbody⟩ := CodeAddress.holds_append_iff.1 hslots
  obtain ⟨hslots, hexit⟩ := CodeAddress.holds_append_iff.1 hslots
  obtain ⟨hopening, hcondition⟩ := CodeAddress.holds_append_iff.1 hslots
  have hlocal : ∀ i id, home.context.pc.program.program.locals[i]? = some id →
      home.HasLocal id i := fun i id hi =>
    ⟨h.places i id hi, (List.getElem?_eq_some_iff.1 hi).1⟩
  refine ⟨hopening, hcondition,
    Program.branchesTo_of_distance hexit.1 (toInt_relative (by decide) (by decide)), hbody,
    Program.branchesTo_of_distance hback.1 (toInt_relative (by decide) (by decide)), hstoring,
    hprinting, hreturning, ?_, h.declared, hlocal 0 _ ?_, hlocal 1 _ ?_, hlocal 2 _ ?_, hroom⟩
  · rw [Program.size, h.code]
    rfl
  all_goals
    rw [h.locals]
    rfl

section Run

variable {n : Names} {limit : Int32} {routine : NativeId} {home s : State} {locals : Nat → Value}
  {operands : List Value} {store : Store} {position : Nat}

theorem evaluates_add (host : Host) (a b : Int32) (store : Store) :
    Evaluates host .add [] [.int a, .int b] store (.ok ([.int (a + b)], store)) :=
  .of_operator rfl (fun _ => rfl) (Execution.Operator.computes_arrayOrInt_of_not_array _ _ rfl
    (.pop [.int a] (.convert rfl (.pop [] (.convert rfl (.ofExcept rfl (.deliver _)))))))

theorem evaluates_lessEqual (host : Host) (a b : Int32) (store : Store) :
    Evaluates host .lessEqual [] [.int a, .int b] store
      (.ok ([.int (flag (a ≤ b))], store)) :=
  .of_operator rfl (fun _ => rfl)
    (.pop [.int a] (.convert rfl (.pop [] (.convert rfl (.ofExcept rfl (.deliver _))))))

theorem evaluates_increment (host : Host) (a : Int32) (store : Store) :
    Evaluates host .increment [] [.int a] store (.ok ([.int (a + 1)], store)) :=
  .of_operator rfl (fun _ => rfl) (.pop [] (.convert rfl (.deliver _)))

/-- While the loop runs, the two numbers are where they belong and there is no array yet. -/
structure Counted (locals : Nat → Value) (total counter : Int32) : Prop where
  total : locals 0 = .int total
  counter : locals 1 = .int counter
  table : locals 2 = .unset

/-- The opening leads to the condition of the loop. -/
theorem opening_run (host : Host) (h : Prepared n limit routine home)
    (hs : home.Stands 0 locals [] store s) (htable : locals 2 = .unset) :
    ∃ t locals', host.Proceeds 4 s t ∧ home.Stands 8 locals' [] store t ∧ Counted locals' 0 1 := by
  obtain ⟨zero, hzero⟩ := h.declared.zero
  obtain ⟨one, hone⟩ := h.declared.one
  obtain ⟨s₁, hmoves₁, hs₁⟩ := hs.pushConstant host (h.opening.piece 0 ⟨_, rfl⟩) hzero rfl
    (h.fits (by simp))
  obtain ⟨s₂, hmoves₂, hs₂⟩ := hs₁.assignLocal host [] (h.opening.piece 2 ⟨_, rfl⟩) h.total rfl
    (h.fits (by simp))
  obtain ⟨s₃, hmoves₃, hs₃⟩ := hs₂.pushConstant host (h.opening.piece 4 ⟨_, rfl⟩) hone rfl
    (h.fits (by simp))
  obtain ⟨s₄, hmoves₄, hs₄⟩ := hs₃.assignLocal host [] (h.opening.piece 6 ⟨_, rfl⟩) h.counter rfl
    (h.fits (by simp))
  refine ⟨s₄, _, .move hmoves₁ <| .move hmoves₂ <| .move hmoves₃ <| .move hmoves₄ <| .stay s₄, hs₄,
    rfl, rfl, htable⟩

/-- The condition leads to the body as long as the counter is within the limit. -/
theorem condition_run (host : Host) {k : Int32} (h : Prepared n limit routine home)
    (hs : home.Stands 8 locals [] store s) (hcounter : locals 1 = .int k) :
    ∃ t, host.Proceeds 4 s t ∧
      home.Stands (if k ≤ limit then 15 else 29) locals [] store t := by
  obtain ⟨bound, hbound⟩ := h.declared.bound
  obtain ⟨s₁, hmoves₁, hs₁⟩ := hs.pushLocal host (h.condition.piece 0 ⟨_, rfl⟩) h.counter
    (by rw [hcounter]; rfl) (h.fits (by simp))
  obtain ⟨s₂, hmoves₂, hs₂⟩ := hs₁.pushConstant host (h.condition.piece 2 ⟨_, rfl⟩) hbound rfl
    (h.fits (by simp))
  rw [hcounter] at hs₂
  obtain ⟨s₃, hmoves₃, hs₃⟩ := hs₂.evaluates [] (evaluates_lessEqual host k limit store)
    (h.condition.piece 4 ⟨_, rfl⟩) (h.fits (by simp))
  have hbranch : (home.context.pc.jump 13).Holds [.op .branchFalse] := h.condition.piece 5 ⟨_, rfl⟩
  obtain ⟨s₄, hmoves₄, hs₄⟩ := hs₃.branchFalse host [] hbranch.1 h.exit (by rw [h.size]; decide)
    (h.fits (by simp))
  refine ⟨s₄, .move hmoves₁ <| .move hmoves₂ <| .move hmoves₃ <| .move hmoves₄ <| .stay s₄, ?_⟩
  by_cases hle : k ≤ limit
  · have hflag : flag (k ≤ limit) ≠ 0 := by
      rw [decide_eq_true hle]
      decide
    rw [if_neg hflag] at hs₄
    rwa [if_pos hle]
  · have hflag : flag (k ≤ limit) = 0 := by
      rw [decide_eq_false hle]
      rfl
    rw [if_pos hflag] at hs₄
    rwa [if_neg hle]

/-- The body adds the counter to the total and moves the counter on. -/
theorem body_run (host : Host) {total k : Int32} (h : Prepared n limit routine home)
    (hs : home.Stands 15 locals [] store s) (hcounted : Counted locals total k) :
    ∃ t locals', host.Proceeds 8 s t ∧ home.Stands 8 locals' [] store t ∧
      Counted locals' (total + k) (k + 1) := by
  -- total = total + i
  obtain ⟨s₁, hmoves₁, hs₁⟩ := hs.pushLocal host (h.body.piece 0 ⟨_, rfl⟩) h.total
    (by rw [hcounted.total]; rfl) (h.fits (by simp))
  obtain ⟨s₂, hmoves₂, hs₂⟩ := hs₁.pushLocal host (h.body.piece 2 ⟨_, rfl⟩) h.counter
    (by rw [hcounted.counter]; rfl) (h.fits (by simp))
  rw [hcounted.total, hcounted.counter] at hs₂
  obtain ⟨s₃, hmoves₃, hs₃⟩ := hs₂.evaluates [] (evaluates_add host total k store)
    (h.body.piece 4 ⟨_, rfl⟩) (h.fits (by simp))
  obtain ⟨s₄, hmoves₄, hs₄⟩ := hs₃.assignLocal host [] (h.body.piece 5 ⟨_, rfl⟩) h.total rfl
    (h.fits (by simp))
  -- i = i + 1
  have hcounter : Function.update locals 0 (.int (total + k)) 1 = .int k := hcounted.counter
  obtain ⟨s₅, hmoves₅, hs₅⟩ := hs₄.pushLocal host (h.body.piece 7 ⟨_, rfl⟩) h.counter
    (by rw [hcounter]; rfl) (h.fits (by simp))
  rw [hcounter] at hs₅
  obtain ⟨s₆, hmoves₆, hs₆⟩ := hs₅.evaluates [] (evaluates_increment host k store)
    (h.body.piece 9 ⟨_, rfl⟩) (h.fits (by simp))
  obtain ⟨s₇, hmoves₇, hs₇⟩ := hs₆.assignLocal host [] (h.body.piece 10 ⟨_, rfl⟩) h.counter rfl
    (h.fits (by simp))
  have hbranch : (home.context.pc.jump 27).Holds [.op .branch] := h.body.piece 12 ⟨_, rfl⟩
  obtain ⟨s₈, hmoves₈, hs₈⟩ := hs₇.branch host hbranch.1 h.back (by rw [h.size]; decide)
    (h.fits (by simp))
  refine ⟨s₈, _, ?_, hs₈, rfl, rfl, hcounted.table⟩
  exact .move hmoves₁ <| .move hmoves₂ <| .move hmoves₃ <| .move hmoves₄ <| .move hmoves₅ <|
    .move hmoves₆ <| .move hmoves₇ <| .move hmoves₈ <| .stay s₈

/-- The sum of the numbers up to this one. -/
def triangle (j : Nat) : Nat :=
  j * (j + 1) / 2

theorem triangle_succ (j : Nat) : triangle (j + 1) = triangle j + (j + 1) := by
  have hsum : (j + 1) * (j + 1 + 1) = j * (j + 1) + 2 * (j + 1) := by grind
  rw [triangle, hsum, Nat.add_mul_div_left _ _ Nat.zero_lt_two, triangle]

/-- How often the body of the loop runs. -/
def rounds (limit : Int32) : Nat :=
  limit.toInt.toNat

/-- The counter tells how many rounds are left. -/
theorem ofNat_succ_le_iff (hlimit : limit.toInt < 2147483647) {j : Nat} (hj : j ≤ rounds limit) :
    Int32.ofNat (j + 1) ≤ limit ↔ j + 1 ≤ rounds limit := by
  have hlt : j + 1 < 2147483648 := by
    rw [rounds] at hj
    omega
  rw [Int32.le_iff_toInt_le, Int32.toInt_ofNat_of_lt hlt, rounds]
  omega

/-- After `j` rounds the total is the sum of the numbers up to `j`, and the counter is the next
number; so it is after each of the `m` rounds that are left. -/
theorem loop_run (host : Host) (hlimit : limit.toInt < 2147483647)
    (h : Prepared n limit routine home) {j m : Nat} (hrounds : j + m = rounds limit)
    (hs : home.Stands 8 locals [] store s)
    (hcounted : Counted locals (.ofNat (triangle j)) (.ofNat (j + 1))) :
    ∃ t locals' k, host.Proceeds (12 * m + 4) s t ∧ home.Stands 29 locals' [] store t ∧
      Counted locals' (.ofNat (triangle (rounds limit))) k := by
  induction m generalizing j locals s with
  | zero =>
    obtain ⟨t, hcondition, ht⟩ := condition_run host h hs hcounted.counter
    have hle := ofNat_succ_le_iff hlimit (Nat.le.intro hrounds)
    rw [if_neg (hle.not.2 (by omega))] at ht
    subst hrounds
    exact ⟨t, locals, _, hcondition, ht, hcounted⟩
  | succ m ih =>
    obtain ⟨u, hcondition, hu⟩ := condition_run host h hs hcounted.counter
    have hle := ofNat_succ_le_iff hlimit (Nat.le.intro hrounds)
    rw [if_pos (hle.2 (by omega))] at hu
    obtain ⟨v, locals', hbody, hv, hcounted'⟩ := body_run host h hu hcounted
    have hnext : Int32.ofNat (j + 1) + 1 = Int32.ofNat (j + 1 + 1) := (Int32.ofNat_add _ _).symm
    rw [← Int32.ofNat_add, ← triangle_succ, hnext] at hcounted'
    obtain ⟨t, locals'', k, hloop, ht, hcounted''⟩ := ih (by omega) hv hcounted'
    refine ⟨t, locals'', k, ?_, ht, hcounted''⟩
    have hall := hcondition.trans (hbody.trans hloop)
    rwa [show 4 + (8 + (12 * m + 4)) = 12 * (m + 1) + 4 by omega] at hall

/-- The array of the macro holds a number under the key of the macro. -/
def Stored (locals : Nat → Value) (store : Store) (total : Int32) : Prop :=
  ∃ ref, locals 2 = .array ref ∧ (store.entries ref).get? "sum" = some (.int total)

theorem keyOf_sum : keyOf [.text "sum"] = .ok "sum" :=
  rfl

/-- The total is stored in a new array. -/
theorem storing_run (host : Host) {total k : Int32} (h : Prepared n limit routine home)
    (hs : home.Stands 29 locals [] store s) (hcounted : Counted locals total k) :
    ∃ t locals' store', host.Proceeds 4 s t ∧ home.Stands 38 locals' [] store' t ∧
      Stored locals' store' total := by
  obtain ⟨key, hkey⟩ := h.declared.key
  obtain ⟨s₁, hmoves₁, hs₁⟩ := hs.makeArray host (h.storing.piece 0 ⟨_, rfl⟩) h.table
    hcounted.table rfl (h.fits (by simp))
  obtain ⟨s₂, hmoves₂, hs₂⟩ := hs₁.pushConstant host (h.storing.piece 3 ⟨_, rfl⟩) hkey rfl
    (h.fits (by simp))
  have htotal : Function.update locals 2 (.array (store.alloc .empty).1) 0 = .int total :=
    hcounted.total
  obtain ⟨s₃, hmoves₃, hs₃⟩ := hs₂.pushLocal host (h.storing.piece 5 ⟨_, rfl⟩) h.total
    (by rw [htotal]; rfl) (h.fits (by simp))
  rw [htotal] at hs₃
  obtain ⟨s₄, hmoves₄, hs₄⟩ := hs₃.evaluates []
    (evaluates_setElement host (store.alloc .empty).1 (.int total) _ (List.cons_ne_nil _ _) rfl
      keyOf_sum) (h.storing.piece 7 ⟨_, rfl⟩) (h.fits (by simp))
  refine ⟨s₄, _, _, .move hmoves₁ <| .move hmoves₂ <| .move hmoves₃ <| .move hmoves₄ <| .stay s₄,
    hs₄, _, rfl, ?_⟩
  have hin : (store.alloc .empty).1.index < (store.alloc .empty).2.containers.size := by
    simp [Store.alloc]
  show (((store.alloc .empty).2.modify _ (·.insert "sum" (.int total))).entries _).get? "sum" = _
  rw [Store.entries_modify _ _ hin, Entries.get?_insert, if_pos rfl]

/-- The number in the array is put on the stack. -/
theorem element_run (host : Host) {total : Int32} (h : Prepared n limit routine home)
    (hcode : (home.context.pc.jump position).Holds (pushElement n.table n.key))
    (hs : home.Stands position locals operands store s) (hstored : Stored locals store total)
    (hlength : operands.length ≤ 1) :
    ∃ t, host.Proceeds 3 s t ∧
      home.Stands (position + 7) locals (operands ++ [.int total]) store t := by
  obtain ⟨key, hkey⟩ := h.declared.key
  obtain ⟨ref, hvalue, hget⟩ := hstored
  obtain ⟨s₁, hmoves₁, hs₁⟩ := hs.pushArray host (hcode.piece 0 ⟨_, rfl⟩) h.table hvalue
    (h.fits (by omega))
  obtain ⟨s₂, hmoves₂, hs₂⟩ := hs₁.pushConstant host (hcode.piece 3 ⟨_, rfl⟩) hkey rfl
    (h.fits (by rw [List.length_append, List.length_singleton]; omega))
  rw [List.append_assoc] at hs₂
  have hreads := reads host ref store (n := 1) (List.cons_ne_nil _ _) rfl keyOf_sum
  rw [hget] at hreads
  obtain ⟨s₃, hmoves₃, hs₃⟩ := hs₂.evaluates operands hreads (hcode.piece 5 ⟨_, rfl⟩)
    (h.fits (by rw [List.length_append, List.length_singleton]; omega))
  exact ⟨s₃, .move hmoves₁ <| .move hmoves₂ <| .move hmoves₃ <| .stay s₃, hs₃⟩

/-- The number is printed. -/
theorem printing_run {host : Host} {total : Int32} {result : Value}
    (h : Prepared n limit routine home)
    (hroutine : host.routine routine [.text "sum", .int total] = .finish (.ok result))
    (hs : home.Stands 38 locals [] store s) (hstored : Stored locals store total) :
    ∃ t, host.Proceeds 5 s t ∧
      (home.served ⟨routine, [.text "sum", .int total], store⟩).Stands 50 locals [] store t := by
  obtain ⟨key, hkey⟩ := h.declared.key
  obtain ⟨s₁, hmoves₁, hs₁⟩ := hs.pushConstant host (h.printing.piece 0 ⟨_, rfl⟩) hkey rfl
    (h.fits (by simp))
  obtain ⟨s₂, helement, hs₂⟩ := element_run host h (h.printing.piece 2 ⟨_, rfl⟩) hs₁ hstored
    (Nat.le_refl 1)
  have hnext : (home.context.pc.jump 50).slot? ≠ some (.op .fetchResult) := by
    rw [h.returning.1]
    decide
  obtain ⟨s₃, hmoves₃, hs₃⟩ := hs₂.callRoutine [] [.text "sum", .int total]
    (h.printing.piece 9 ⟨_, rfl⟩) hnext h.declared.print rfl hroutine
  exact ⟨s₃, .move hmoves₁ (helement.trans (.move hmoves₃ (.stay s₃))), hs₃⟩

/-- The whole macro, up to its last instruction. -/
theorem sums_run {host : Host} {result : Value} (hlimit : limit.toInt < 2147483647)
    (h : Prepared n limit routine home)
    (hroutine : host.routine routine [.text "sum", .int (.ofNat (triangle (rounds limit)))] =
      .finish (.ok result))
    (hs : home.Stands 0 locals [] store s) (htable : locals 2 = .unset) :
    ∃ t locals' store', host.Proceeds (20 + 12 * rounds limit) s t ∧
      (home.served ⟨routine, [.text "sum", .int (.ofNat (triangle (rounds limit)))], store'⟩).Stands
        57 locals' [.int (.ofNat (triangle (rounds limit)))] store' t := by
  obtain ⟨s₁, locals₁, hopening, hs₁, hcounted⟩ := opening_run host h hs htable
  obtain ⟨s₂, locals₂, k, hloop, hs₂, hcounted⟩ :=
    loop_run host hlimit h (Nat.zero_add _) hs₁ hcounted
  obtain ⟨s₃, locals₃, store', hstoring, hs₃, hstored⟩ := storing_run host h hs₂ hcounted
  obtain ⟨s₄, hprinting, hs₄⟩ := printing_run h hroutine hs₃ hstored
  obtain ⟨s₅, helement, hs₅⟩ := element_run host (h.served _) (h.returning.piece 0 ⟨_, rfl⟩) hs₄
    hstored (Nat.zero_le 1)
  refine ⟨s₅, locals₃, store', ?_, hs₅⟩
  have hall := hopening.trans (hloop.trans (hstoring.trans (hprinting.trans helement)))
  rwa [show 4 + (12 * rounds limit + 4 + (4 + (5 + 3))) = 20 + 12 * rounds limit by omega] at hall

end Run

/-! ## The result -/

/-- The sum of the numbers from one to the limit, as far as it fits into a number. -/
def sum (limit : Int32) : Int32 :=
  if 0 < limit then .ofInt (limit.toInt * (limit.toInt + 1) / 2) else 0

theorem sum_eq_ofNat (limit : Int32) : sum limit = .ofNat (triangle (rounds limit)) := by
  have hpos : 0 < limit ↔ 0 < limit.toInt := Int32.lt_iff_toInt_lt
  by_cases h : 0 < limit
  · have hcast : ((triangle (rounds limit) : Nat) : Int) = limit.toInt * (limit.toInt + 1) / 2 := by
      have hrounds : ((rounds limit : Nat) : Int) = limit.toInt :=
        Int.toNat_of_nonneg (Int.le_of_lt (hpos.1 h))
      rw [triangle, Int.natCast_ediv, Int.natCast_mul, Int.natCast_add, hrounds]
      rfl
    rw [sum, if_pos h, ← hcast]
    exact Int32.ofInt_eq_ofNat
  · have hrounds : rounds limit = 0 := Int.toNat_of_nonpos (Int.not_lt.1 (hpos.not.1 h))
    rw [sum, if_neg h, hrounds]
    rfl

theorem printedLine_sum (s : Int32) :
    printedLine [.text "sum", .int s] = .ok ("sum " ++ Numeral.render s) := by
  have hjoin : " ".intercalate ["sum", Numeral.render s] = "sum " ++ Numeral.render s := by
    simp
  exact congrArg Except.ok hjoin

theorem solitary_host (budget : Option Nat) : (host budget).Solitary := by
  intro routine arguments
  show (print arguments).Solitary
  rw [print]
  cases printedLine arguments with
  | ok line => trivial
  | error e => trivial

theorem scoped_world : world.2.symbols.Scoped :=
  (SymbolTable.scoped_empty.after [.installArguments, .defineNative "t_print" ⟨0⟩]
    (by decide +kernel)).1

/-- The context in which a macro without arguments begins. -/
def beginning (p : ProgramRef) (limit : Nat) (target : Option DocumentHandle) : Context where
  stack := withFrame #[] none none 0 p.program.locals.length
  limit := limit
  fp := 4
  pc := ⟨p, 0⟩
  runTarget := target
  focusTarget := target

section Beginning

variable {p : ProgramRef} {limit : Nat} (target : Option DocumentHandle)

theorem start_eq_beginning (h : 4 + p.program.locals.length ≤ limit) :
    Context.start p [] limit target = .ok (beginning p limit target) := by
  have hroom : ¬ limit < 0 + (4 + p.program.locals.length) := by omega
  simp only [Context.start, Context.pushFrame, List.length_nil, List.size_toArray,
    if_neg (Nat.not_lt_zero _), if_neg hroom]
  rfl

theorem outermost_beginning : (beginning p limit target).Outermost :=
  ⟨_, Context.popFrame_of_slots (withFrame_slot #[] _ _ _ _ (i := 0) (by decide))
    (withFrame_slot #[] _ _ _ _ (i := 1) (by decide))
    (withFrame_slot #[] _ _ _ _ (i := 2) (by decide)) (by decide) (Nat.le_refl 4)⟩

theorem size_beginning :
    (beginning p limit target).stack.size = 4 + p.program.locals.length :=
  (size_withFrame _ _ _ _).trans (congrArg (· + _) (Nat.zero_add 4))

end Beginning

/-- A macro that has the code of the demonstration calls the routine once and then returns. -/
theorem Assembled.sums {host : Host} {n : Names} {limit : Int32} {routine : NativeId}
    {p : ProgramRef} {w : World} {result : Value} {stackSize : Nat}
    (h : Assembled n limit routine p.program w.symbols) (hlimit : limit.toInt < 2147483647)
    (hroutine : host.routine routine [.text "sum", .int (sum limit)] = .finish (.ok result))
    (hroom : 10 ≤ stackSize) (target : Option DocumentHandle) :
    ∃ t store after, host.Proceeds (20 + 12 * rounds limit) ⟨w, beginning p stackSize target⟩ t ∧
      host.Ends t (.done (.int (sum limit))) after ∧
      after.calls = w.calls.push ⟨routine, [.text "sum", .int (sum limit)], store⟩ := by
  have hsize : (beginning p stackSize target).stack.size = 7 := by
    rw [size_beginning, h.locals]
    rfl
  have hprepared : Prepared n limit routine ⟨w, beginning p stackSize target⟩ :=
    h.prepared (hsize ▸ hroom)
  have hstands : State.Stands ⟨w, beginning p stackSize target⟩ 0 (fun _ => .unset) [] w.store
      ⟨w, beginning p stackSize target⟩ :=
    State.stands_self (hsize ▸ Nat.le_of_add_right_le (k := 3) hroom) fun o ho =>
      withFrame_local none none 0 _ (Nat.le_add_right 4 o) (Nat.add_lt_add_left ho 4)
  rw [sum_eq_ofNat] at hroutine ⊢
  obtain ⟨t, locals, store, hrun, ht⟩ := sums_run hlimit hprepared hroutine hstands rfl
  have hreturn : ((beginning p stackSize target).pc.jump 57).Holds [.op .returnValue] :=
    hprepared.returning.piece 7 ⟨_, rfl⟩
  obtain ⟨after, hends, -, hcalls⟩ := ht.ends host [] hreturn.1 (outermost_beginning target)
    (hsize ▸ Nat.le_add_right 4 3)
  exact ⟨t, store, after, hrun, ⟨0, hends _⟩, hcalls⟩

/-- The macro for a limit below the largest number can be assembled.  Started in a world that knows
nothing but the printing routine, under any instruction limit that is not zero, it is done with the
sum of the numbers up to its limit.  It has called the routine once, with the key and the sum, and
the number of its slices follows from the number of rounds. -/
theorem sums_numbers_up_to_limit (limit : Int32) (hlimit : limit.toInt < 2147483647)
    (budget : Option Nat) (hbudget : ∀ b ∈ budget, 1 ≤ b) (target : Option DocumentHandle) :
    ∃ program symbols, build world.2.symbols world.1 limit = .ok (program, symbols) ∧
    let started := { world.2 with symbols }.share program
    ∃ routine store after,
      world.2.symbols.get? world.1 = some ⟨"t_print", .native, .native routine⟩ ∧
      (∀ fuel slices, 20 + 12 * rounds limit < fuel → 20 + 12 * rounds limit < slices →
        (host budget).drive fuel slices started.2 started.1 [] target =
          some (.done (.int (sum limit)),
            budget.elim 1 fun b => (20 + 12 * rounds limit) / b + 1, after)) ∧
      after.calls = #[⟨routine, [.text "sum", .int (sum limit)], store⟩] ∧
      printed after = "sum " ++ Numeral.render (sum limit) ++ "\n" := by
  have hprint : world.2.symbols.get? world.1 = some ⟨"t_print", .native, .native ⟨0⟩⟩ := by
    decide +kernel
  obtain ⟨n, program, symbols, hbuild, hassembled⟩ :=
    build_eq_ok scoped_world (by decide +kernel) ⟨_, hprint⟩ limit
  refine ⟨program, symbols, hbuild, ?_⟩
  intro started
  have hroutine : (host none).routine ⟨0⟩ [.text "sum", .int (sum limit)] = Routine.idle := by
    show print [.text "sum", .int (sum limit)] = _
    rw [print, printedLine_sum]
  obtain ⟨t, store, after, hrun, hends, hcalls⟩ := Assembled.sums (p := started.1) (w := started.2)
    hassembled hlimit hroutine (show 10 ≤ 1024 by decide) target
  have hlocals : started.1.program.locals.length = 3 := congrArg List.length hassembled.locals
  have hstart : Context.start started.1 [] 1024 target = .ok (beginning started.1 1024 target) :=
    start_eq_beginning target (by rw [hlocals]; decide)
  refine ⟨⟨0⟩, store, after, hprint, fun fuel slices hfuel hslices => ?_, hcalls, ?_⟩
  · have hdrive := Host.drive_to_end (solitary_host none) hstart hrun hends budget hfuel hslices
    refine hdrive.trans ?_
    cases budget with
    | none => rfl
    | some b =>
      have hb : max b 1 = b := Nat.max_eq_left (hbudget b rfl)
      simp only [Option.elim_some, hb]
  · have hone : after.calls.toList = [⟨⟨0⟩, [.text "sum", .int (sum limit)], store⟩] :=
      congrArg Array.toList hcalls
    rw [printed, hone, List.map_singleton, printedLine_sum]
    exact String.empty_append

/-- A sum that does not fit into a number, in slices of a hundred instructions. -/
theorem sums_numbers_up_to_hundred_thousand :
    (100000 : Int32).toInt < 2147483647 ∧ (∀ b ∈ some 100, 1 ≤ b) ∧
    ∃ program symbols, build world.2.symbols world.1 100000 = .ok (program, symbols) ∧
    let started := { world.2 with symbols }.share program
    ∃ store after,
      (host (some 100)).drive 1200021 1200021 started.2 started.1 [] none =
        some (.done (.int 705082704), 12001, after) ∧
      after.calls = #[⟨⟨0⟩, [.text "sum", .int 705082704], store⟩] ∧
      printed after = "sum 705082704\n" := by
  have hlimit : (100000 : Int32).toInt < 2147483647 := by decide
  have hbudget : ∀ b ∈ some 100, 1 ≤ b := by simp
  refine ⟨hlimit, hbudget, ?_⟩
  obtain ⟨program, symbols, hbuild, routine, store, after, hroutine, hdrive, hcalls, hprinted⟩ :=
    sums_numbers_up_to_limit 100000 hlimit (some 100) hbudget none
  have hprint : world.2.symbols.get? world.1 = some ⟨"t_print", .native, .native ⟨0⟩⟩ := by
    decide +kernel
  cases hprint.symm.trans hroutine
  have hsum : sum 100000 = 705082704 := by decide
  have hrounds : rounds 100000 = 100000 := by decide
  have hline : "sum " ++ Numeral.render 705082704 ++ "\n" = "sum 705082704\n" := by decide +kernel
  rw [hsum] at hdrive hcalls hprinted
  rw [hrounds] at hdrive
  exact ⟨program, symbols, hbuild, store, after, hdrive _ _ (by decide) (by decide), hcalls,
    hprinted.trans hline⟩

end Demo

end MacroMachine
