import MacroMachine.Proofs.Mirroring
import MacroMachine.Proofs.Turns

/-!
# Suspended macros do not interfere

Two macros take turns in one world.  If each of them refers to private symbols only, and no
container is within reach of both, then neither notices the other: after any number of turns each is
where it would be if it had the world to itself, up to the names of containers
(`Host.interleaved_macros_undisturbed`).

*Reach.*  A macro reaches the containers that its arguments name, those that are named in these, and
so on (`Store.Reaches`).  It can run its own program, the functions that its programs refer to, and
a program that an address among its arguments leads into (`Macro.CanRun`).

*The invariant.*  Beside every interleaving run both macros alone (`Host.Tracks`).  A turn of one of
them is mirrored in its own run.  For the other the turn only changes containers that are not its
own, so its run stands as it was.
-/

namespace MacroMachine

/-! ## What macros have within reach -/

/-- The values within reach of some others: themselves, and what is held by containers within
reach. -/
inductive Store.Within (s : Store) (roots : List Value) : Value → Prop where
  | root {v : Value} (h : v ∈ roots) : Within s roots v
  | entry {v u : Value} {ref : ArrayRef} {key : String} (h : Within s roots v)
      (hname : v.container? = some ref) (hentry : (key, u) ∈ (s.entries ref).toList) :
    Within s roots u

/-- A container is within reach of some values. -/
def Store.Reaches (s : Store) (roots : List Value) (ref : ArrayRef) : Prop :=
  ∃ v, s.Within roots v ∧ v.container? = some ref

namespace Macro

/-- The programs that a macro can come to run. -/
inductive CanRun (w : World) (m : Macro) : ProgramRef → Prop where
  | start : CanRun w m m.program
  | function {p q : ProgramRef} {id : SymbolId} {symbol : Symbol} (h : CanRun w m p)
      (hid : p.RefersTo id) (hsymbol : w.symbols.get? id = some symbol)
      (hkind : symbol.kind = .function) (hvalue : symbol.value = .program q) : CanRun w m q
  | saved {a : CodeAddress} (h : w.store.Within m.arguments (.address (some a))) :
    CanRun w m a.program

/-- The programs of a macro refer to private symbols only, and the containers within its reach
exist, as they do if a store has given out their names. -/
structure Secluded (w : World) (m : Macro) : Prop where
  symbols : ∀ {p id symbol}, m.CanRun w p → p.RefersTo id → w.symbols.get? id = some symbol →
    symbol.Private
  containers : ∀ {ref}, w.store.Reaches m.arguments ref → ref.index < w.store.containers.size

end Macro

/-! ## Ends -/

/-- Two macros returned alike values, or failed for the same reason. -/
inductive Status.Alike (pairs : Pairing) : Status → Status → Prop where
  | done {v v' : Value} (h : v.Alike pairs v') : Status.Alike pairs (.done v) (.done v')
  | failed {f f' : Fault} (h : f.Alike pairs f') : Status.Alike pairs (.failed f) (.failed f')

/-- Two ends of a macro that was started in the world `w` are the same up to the names of containers.
The containers that were within its reach at the start have kept their names, and they show the same
entries to any depth. -/
def Macro.SameEnd (m : Macro) (w : World) (status : Status) (after : World) (status' : Status)
    (after' : World) : Prop :=
  ∃ pairs : Pairing, pairs.Matches after.store after'.store ∧ status.Alike pairs status' ∧
    ∀ ref, w.store.Reaches m.arguments ref → pairs ref ref ∧
      ∀ depth, after'.store.describeEntriesTo depth ref = after.store.describeEntriesTo depth ref

namespace Host

/-- Two macros have taken turns in one world, in any order, so many turns each. -/
inductive Interleaved (host : Host) (a b : Macro) (w : World) :
    Nat → Nat → Option Status → Option Status → World → Prop where
  | start : Interleaved host a b w 0 0 none none w
  | left {k l fuel : Nat} {p q : Option Status} {u u' : World} {status : Status}
      (h : Interleaved host a b w k l p q u) (hturn : host.turn fuel a p u = some (status, u')) :
    Interleaved host a b w (k + 1) l (some status) q u'
  | right {k l fuel : Nat} {p q : Option Status} {u u' : World} {status : Status}
      (h : Interleaved host a b w k l p q u) (hturn : host.turn fuel b q u = some (status, u')) :
    Interleaved host a b w k (l + 1) p (some status) u'

/-- A macro that has had some turns among others has come as far as it comes alone. -/
structure Undisturbed (host : Host) (m : Macro) (w : World) (turns : Nat)
    (progress : Option Status) (now : World) : Prop where
  /-- If it is over, it comes to the same end alone, in as many slices. -/
  ends : ∀ {status}, progress = some status → status.Final → ∃ fuel more status' after,
    host.drive fuel more w m.program m.arguments m.target = some (status', turns, after) ∧
      m.SameEnd w status' after status now
  /-- If it comes to an end alone, it has come to the same end by now, or it can take its next turn
  and has had fewer turns than it takes alone. -/
  follows : ∀ {fuel more n status after},
    host.drive fuel more w m.program m.arguments m.target = some (status, n, after) →
    status.Final →
    (turns = n ∧ ∃ status', progress = some status' ∧ m.SameEnd w status after status' now) ∨
      turns < n ∧ ∃ fuel answer, host.turn fuel m progress now = some answer

end Host

/-! ## Turns are mirrored -/

/-- What is within reach of a macro is its own counterpart. -/
theorem Setting.Same.of_within {E : Setting} {pairs : Pairing} {s : Store} {roots : List Value}
    {v : Value} (hown : ∀ {ref}, s.Reaches roots ref → pairs ref ref)
    (hsaved : ∀ {a}, s.Within roots (.address (some a)) → E.programs a.program)
    (h : s.Within roots v) : E.Same pairs v v := by
  refine ⟨?_, fun heq => hsaved (heq ▸ h)⟩
  cases v with
  | array ref => exact .array (hown ⟨_, h, rfl⟩)
  | iterator it => exact .iterator (hown ⟨_, h, rfl⟩)
  | _ => exact .other rfl

/-- A turn does the same in twin worlds. -/
theorem Setting.turn_answers {E : Setting} {pairs : Pairing} {m : Macro}
    (hprogram : E.programs m.program) (harguments : ∀ v ∈ m.arguments, E.Same pairs v v)
    (host : Host) (fuel : Nat) {p p' : Option Status} (hp : Option.Rel (E.Statuses pairs) p p')
    {u u' : World} (hw : E.Worlds pairs u u') :
    E.Answers pairs u'.store (host.turn fuel m p u) (host.turn fuel m p' u') := by
  cases hp with
  | none =>
    simp only [Host.turn, Host.execute]
    cases hstart : Context.start m.program m.arguments host.limits.stackSize m.target with
    | error e => exact .some (.refl _ _) hw (.failed (.same e))
    | ok c => exact E.runSlice_answers host fuel 0 hw (.start harguments hprogram hstart)
  | some hstatus =>
    cases hstatus with
    | done => exact .none
    | failed => exact .none
    | preempted hc => exact E.runSlice_answers host fuel 0 hw hc

/-! ## Runs alone beside an interleaving -/

/-- No container of the shared store has a partner under both pairings. -/
def Pairing.Apart (pairs other : Pairing) : Prop :=
  ∀ ⦃r r' ref⦄, pairs r ref → ¬ other r' ref

namespace Pairing.Apart

variable {pairs pairs' other : Pairing}

theorem symm (h : pairs.Apart other) : other.Apart pairs :=
  fun _ _ _ hother hpair => h hpair hother

/-- New pairs are about new containers, which no other pairing knows. -/
theorem extend (h : pairs.Apart other) {s t : Store} (grown : pairs.Extends pairs' s t)
    (hother : ∀ {r ref}, other r ref → ref.index < s.containers.size) : pairs'.Apart other := by
  intro r r' ref hpair hpair'
  rcases grown.fresh hpair with hold | hnew
  · exact h hold hpair'
  · exact Nat.not_lt.2 hnew (hother hpair')

end Pairing.Apart

/-- The containers within reach of a macro, each paired with itself. -/
def Macro.ownPairs (m : Macro) (w : World) : Pairing := fun ref ref' =>
  ref = ref' ∧ w.store.Reaches m.arguments ref

namespace Host

variable {host : Host} {E : Setting} {m : Macro} {w : World} {pairs other other' : Pairing}
  {k : Nat} {p p' : Option Status} {u u' : World}

/-- Beside a macro that takes its turns among others runs the same macro alone. -/
structure Tracks (host : Host) (E : Setting) (m : Macro) (w : World) (pairs : Pairing) (k : Nat)
    (p' : Option Status) (u' : World) (p : Option Status) (u : World) : Prop where
  alone : host.Alone m w k p' u'
  worlds : E.Worlds pairs u' u
  own : ∀ {ref}, w.store.Reaches m.arguments ref → pairs ref ref
  progress : Option.Rel (E.Statuses pairs) p' p

namespace Tracks

/-- Before the first turn both worlds are the same one. -/
theorem start (host : Host) (hsymbols : w.symbols = E.symbols) (hm : m.Secluded w)
    (hadmits : ∀ {p}, m.CanRun w p → E.programs p) :
    host.Tracks E m w (m.ownPairs w) 0 none w none w where
  alone := .start
  worlds := by
    refine ⟨hsymbols, hsymbols, ?_, ?_, ?_, ?_, ?_⟩
    · rintro ref other ref' ⟨rfl, -⟩ ⟨rfl, -⟩
      rfl
    · rintro ref ref' other ⟨rfl, -⟩ ⟨rfl, -⟩
      rfl
    · rintro ref ref' ⟨-, href⟩
      exact hm.containers href
    · rintro ref ref' ⟨rfl, href⟩
      exact hm.containers href
    · rintro ref ref' ⟨rfl, v, hv, hname⟩
      refine List.forall₂_same.2 fun entry hentry => ⟨rfl, ?_⟩
      exact .of_within (fun href => ⟨rfl, href⟩) (fun ha => hadmits (.saved ha))
        (.entry hv hname hentry)
  own href := ⟨rfl, href⟩
  progress := .none

theorem answers (h : host.Tracks E m w pairs k p' u' p u)
    (hadmits : ∀ {p}, m.CanRun w p → E.programs p) (fuel : Nat) :
    E.Answers pairs u.store (host.turn fuel m p' u') (host.turn fuel m p u) := by
  refine E.turn_answers (hadmits .start) (fun v hv => ?_) host fuel h.progress h.worlds
  exact .of_within h.own (fun ha => hadmits (.saved ha)) (.root hv)

/-- The macro takes a turn: alone it takes the same one. -/
theorem turn (h : host.Tracks E m w pairs k p' u' p u)
    (hadmits : ∀ {p}, m.CanRun w p → E.programs p) {fuel : Nat} {status : Status} {v : World}
    (hturn : host.turn fuel m p u = some (status, v)) :
    ∃ pairs' status' v', host.Tracks E m w pairs' (k + 1) (some status') v' (some status) v ∧
      pairs.Extends pairs' u.store v.store := by
  have hanswers := h.answers hadmits fuel
  rw [hturn] at hanswers
  generalize halone : host.turn fuel m p' u' = answer at hanswers
  cases hanswers with
  | some grown worlds hstatus =>
    exact ⟨_, _, _, ⟨h.alone.turn halone, worlds, fun href => grown.mono (h.own href),
      .some hstatus⟩, grown⟩

/-- What the macro can do alone it can do among others. -/
theorem turn_of_alone (h : host.Tracks E m w pairs k p' u' p u)
    (hadmits : ∀ {p}, m.CanRun w p → E.programs p) {fuel : Nat} {answer : Status × World}
    (hturn : host.turn fuel m p' u' = some answer) : ∃ answer, host.turn fuel m p u = some answer := by
  have hanswers := h.answers hadmits fuel
  rw [hturn] at hanswers
  generalize host.turn fuel m p u = answer' at hanswers
  cases hanswers with
  | some => exact ⟨_, rfl⟩

/-- Another macro takes a turn: it changes only containers that are no concern of this one. -/
theorem stand (h : host.Tracks E m w pairs k p' u' p u) (hapart : pairs.Apart other) {v : World}
    (hsymbols : v.symbols = E.symbols) (grown : other.Extends other' u.store v.store) :
    host.Tracks E m w pairs k p' u' p v where
  alone := h.alone
  worlds := by
    have hstores := h.worlds.stores
    refine ⟨h.worlds.symbols, hsymbols, hstores.left_unique, hstores.right_unique,
      hstores.left_lt, ?_, ?_⟩
    · intro ref ref' hpair
      exact Nat.lt_of_lt_of_le (hstores.right_lt hpair) grown.size_le
    · intro ref ref' hpair
      rw [grown.kept (hstores.right_lt hpair) fun _ hother => hapart hpair hother]
      exact hstores.entries hpair
  own := h.own
  progress := h.progress

theorem sameEnd {status status' : Status}
    (h : host.Tracks E m w pairs k (some status') u' (some status) u) (hfinal : status.Final) :
    m.SameEnd w status' u' status u := by
  have hmatches := h.worlds.stores.toMatches
  refine ⟨pairs, hmatches, ?_, fun ref href => ⟨h.own href, fun depth => ?_⟩⟩
  · cases h.progress with
    | some hstatus =>
      cases hstatus with
      | done hv => exact .done hv.alike
      | failed hf => exact .failed hf
      | preempted => exact hfinal.elim
  · exact hmatches.describeEntriesTo_eq depth (h.own href)

theorem final_iff {status status' : Status}
    (h : host.Tracks E m w pairs k (some status') u' (some status) u) :
    status'.Final ↔ status.Final := by
  cases h.progress with
  | some hstatus => cases hstatus <;> exact Iff.rfl

/-- A macro that is tracked is undisturbed. -/
theorem undisturbed (h : host.Tracks E m w pairs k p' u' p u)
    (hadmits : ∀ {p}, m.CanRun w p → E.programs p) : host.Undisturbed m w k p u where
  ends := by
    rintro status rfl hfinal
    cases p' with
    | none => cases h.progress
    | some status' =>
      obtain ⟨fuel, more, hdrive⟩ := h.alone.drive (h.final_iff.2 hfinal)
      exact ⟨fuel, more, status', u', hdrive, h.sameEnd hfinal⟩
  follows := by
    intro fuel more n status after hdrive hfinal
    have hend := Alone.of_drive hdrive
    rcases Nat.lt_or_eq_of_le (hend.le_of_final hfinal h.alone) with hlt | rfl
    · -- alone it goes on, so it goes on here too
      obtain ⟨q, v, fuel', answer, hq, hturn⟩ := hend.before hlt
      obtain ⟨rfl, rfl⟩ := h.alone.unique hq
      exact .inr ⟨hlt, fuel', h.turn_of_alone hadmits hturn⟩
    · obtain ⟨rfl, rfl⟩ := h.alone.unique hend
      cases p with
      | none => cases h.progress
      | some status' => exact .inl ⟨rfl, status', rfl, h.sameEnd (h.final_iff.1 hfinal)⟩

end Tracks

/-- Beside an interleaving of two macros runs each of them alone, and no container is of concern to
both. -/
theorem Interleaved.tracks {a b : Macro} (hsymbols : w.symbols = E.symbols) (ha : a.Secluded w)
    (hb : b.Secluded w) (haRun : ∀ {p}, a.CanRun w p → E.programs p)
    (hbRun : ∀ {p}, b.CanRun w p → E.programs p)
    (hapart : ∀ ref, w.store.Reaches a.arguments ref → ¬ w.store.Reaches b.arguments ref)
    {l : Nat} {q : Option Status} (h : host.Interleaved a b w k l p q u) :
    ∃ pairs pairs' p' ua q' ub, host.Tracks E a w pairs k p' ua p u ∧
      host.Tracks E b w pairs' l q' ub q u ∧ pairs.Apart pairs' := by
  induction h with
  | start =>
    refine ⟨_, _, _, _, _, _, .start host hsymbols ha haRun, .start host hsymbols hb hbRun, ?_⟩
    rintro r r' ref ⟨rfl, href⟩ ⟨rfl, href'⟩
    exact hapart _ href href'
  | left _ hturn ih =>
    -- the turn is mirrored in the run of its own macro and leaves that of the other alone
    obtain ⟨pairs, pairs', p', ua, q', ub, htrack, htrack', hapart'⟩ := ih
    obtain ⟨grownPairs, status', v, hmoved, grown⟩ := htrack.turn haRun hturn
    refine ⟨grownPairs, pairs', _, _, q', ub, hmoved, ?_, ?_⟩
    · exact htrack'.stand hapart'.symm hmoved.worlds.symbols' grown
    · exact hapart'.extend grown htrack'.worlds.stores.right_lt
  | right _ hturn ih =>
    obtain ⟨pairs, pairs', p', ua, q', ub, htrack, htrack', hapart'⟩ := ih
    obtain ⟨grownPairs, status', v, hmoved, grown⟩ := htrack'.turn hbRun hturn
    refine ⟨pairs, grownPairs, p', ua, _, _, ?_, hmoved, ?_⟩
    · exact htrack.stand hapart' hmoved.worlds.symbols' grown
    · exact (hapart'.symm.extend grown htrack.worlds.stores.right_lt).symm

end Host

/-- The programs of two secluded macros, with the symbols of the world. -/
def Macro.setting {a b : Macro} {w : World} (ha : a.Secluded w) (hb : b.Secluded w) : Setting where
  symbols := w.symbols
  programs p := a.CanRun w p ∨ b.CanRun w p
  isPrivate hp hid hsymbol := hp.elim (ha.symbols · hid hsymbol) (hb.symbols · hid hsymbol)
  closed hp hid hsymbol hkind hvalue :=
    hp.imp (.function · hid hsymbol hkind hvalue) (.function · hid hsymbol hkind hvalue)

namespace Sample

/-- A macro that stores a number in its first argument and returns its arguments as an array. -/
def fill : ProgramRef :=
  ⟨0, ⟨#[.op .pushSymbol, .symbol ⟨0⟩, .op .pushSymbol, .symbol ⟨1⟩, .op .pushSymbol, .symbol ⟨2⟩,
    .op .setElement, .immediate 1, .op .pushArgumentArray, .op .returnValue], []⟩⟩

/-- The macro started for one of the containers. -/
def filler (i : Nat) : Macro :=
  ⟨fill, [.array ⟨i⟩], none⟩

/-- A host that lets a macro execute five instructions at a time. -/
def fiveHost : Host :=
  ⟨⟨16, some 5⟩, fun _ _ => .idle⟩

/-- The symbols of the macro, and some containers. -/
def shelf (containers : Array (Entries Value)) (dispatches : Array Dispatch) : World :=
  { World.ofSymbols ⟨#[⟨"$1", .argument, .int 0⟩, ⟨"string #0", .constant, .text "key"⟩,
      ⟨"seven", .constant, .int 7⟩], [⟨2⟩, ⟨1⟩, ⟨0⟩], [], 1, 0⟩ with
    store := ⟨containers⟩, dispatches }

/-- What the macro stores. -/
def stored : Entries Value :=
  .ofList [("key", .int 7)]

/-- The array of its arguments. -/
def listed (i : Nat) : Entries Value :=
  .ofList [("0", .array ⟨i⟩)]

/-- The instructions of its first slice. -/
def filling : Array Dispatch :=
  #[⟨.pushSymbol, 0, 5⟩, ⟨.pushSymbol, 2, 6⟩, ⟨.pushSymbol, 4, 7⟩, ⟨.setElement, 6, 8⟩,
    ⟨.pushArgumentArray, 8, 5⟩]

/-- The macro after its first slice, the array of its arguments being the container `fresh`. -/
def filled (i fresh : Nat) : Status :=
  .preempted ⟨#[.array ⟨i⟩, .address none, .frame none, .int 1, .array ⟨fresh⟩, .array ⟨fresh⟩],
    16, 5, ⟨fill, 9⟩, none, none⟩ .instructionLimit

/-- The second macro goes first, so the first one makes its array under another name than alone. -/
theorem fillers_interleaved :
    fiveHost.Interleaved (filler 0) (filler 1) (shelf #[.empty, .empty] #[]) 2 1
      (some (.done (.array ⟨3⟩))) (some (filled 1 2))
      (shelf #[stored, stored, listed 1, listed 0]
        ((filling ++ filling).push ⟨.returnValue, 9, 6⟩)) := by
  have hsecond : fiveHost.turn 6 (filler 1) none (shelf #[.empty, .empty] #[]) =
      some (filled 1 2, shelf #[.empty, stored, listed 1] filling) := by
    decide +kernel
  have hfirst : fiveHost.turn 6 (filler 0) none (shelf #[.empty, stored, listed 1] filling) =
      some (filled 0 3, shelf #[stored, stored, listed 1, listed 0] (filling ++ filling)) := by
    decide +kernel
  have hreturn : fiveHost.turn 6 (filler 0) (some (filled 0 3))
      (shelf #[stored, stored, listed 1, listed 0] (filling ++ filling)) =
      some (.done (.array ⟨3⟩), shelf #[stored, stored, listed 1, listed 0]
        ((filling ++ filling).push ⟨.returnValue, 9, 6⟩)) := by
    decide +kernel
  exact .left (.left (.right .start hsecond) hfirst) hreturn

theorem within_filler {i : Nat} {v : Value}
    (h : (shelf #[.empty, .empty] #[]).store.Within (filler i).arguments v) : v = .array ⟨i⟩ := by
  induction h with
  | root h => exact List.mem_singleton.1 h
  | @entry v u ref key _ hname hentry ih =>
    subst ih
    cases hname
    have hempty : (shelf #[.empty, .empty] #[]).store.entries ⟨i⟩ = .empty := by
      match i with
      | 0 => rfl
      | 1 => rfl
      | _ + 2 => rfl
    rw [hempty] at hentry
    cases hentry

theorem reaches_filler {i : Nat} {ref : ArrayRef}
    (h : (shelf #[.empty, .empty] #[]).store.Reaches (filler i).arguments ref) : ref = ⟨i⟩ := by
  obtain ⟨v, hv, hname⟩ := h
  rw [within_filler hv] at hname
  cases hname
  rfl

theorem refersTo_fill {id : SymbolId} {symbol : Symbol} (hid : fill.RefersTo id)
    (h : (shelf #[.empty, .empty] #[]).symbols.get? id = some symbol) :
    symbol.Private ∧ symbol.kind ≠ .function := by
  have hids : id = ⟨0⟩ ∨ id = ⟨1⟩ ∨ id = ⟨2⟩ := by
    simpa [ProgramRef.RefersTo, fill] using hid
  rcases hids with rfl | rfl | rfl
  all_goals
    cases h
    decide

theorem filler_secluded {i : Nat} (hi : i < 2) :
    (filler i).Secluded (shelf #[.empty, .empty] #[]) := by
  have hrun : ∀ {p}, (filler i).CanRun (shelf #[.empty, .empty] #[]) p → p = fill := by
    intro p hp
    induction hp with
    | start => rfl
    | function _ hid hsymbol hkind _ ih =>
      subst ih
      exact absurd hkind (refersTo_fill hid hsymbol).2
    | saved h => cases within_filler h
  refine ⟨fun hp hid hsymbol => ?_, fun href => ?_⟩
  · cases hrun hp
    exact (refersTo_fill hid hsymbol).1
  · cases reaches_filler href
    exact hi

end Sample

namespace Host

/-- Two macros that refer to private symbols only and have no container in common may take turns in
any order and under any limits: each comes to the end that it comes to alone, in as many slices, and
leaves the same in the containers that were within its reach. -/
theorem interleaved_macros_undisturbed {host : Host} {a b : Macro} {w w' : World}
    (ha : a.Secluded w) (hb : b.Secluded w)
    (hapart : ∀ ref, w.store.Reaches a.arguments ref → ¬ w.store.Reaches b.arguments ref)
    {k l : Nat} {p q : Option Status} (h : host.Interleaved a b w k l p q w') :
    host.Undisturbed a w k p w' ∧ host.Undisturbed b w l q w' := by
  obtain ⟨pairs, pairs', p', ua, q', ub, htrack, htrack', -⟩ :=
    h.tracks (E := Macro.setting ha hb) rfl ha hb .inl .inr hapart
  exact ⟨htrack.undisturbed .inl, htrack'.undisturbed .inr⟩

/-- The first macro returns its arguments under another name than alone. -/
theorem interleaved_macros_undisturbed_when_filling :
    ∃ fuel more after, Sample.fiveHost.drive fuel more (Sample.shelf #[.empty, .empty] #[])
        Sample.fill [.array ⟨0⟩] none = some (.done (.array ⟨2⟩), 2, after) ∧
      (Sample.filler 0).SameEnd (Sample.shelf #[.empty, .empty] #[]) (.done (.array ⟨2⟩)) after
        (.done (.array ⟨3⟩)) (Sample.shelf
          #[Sample.stored, Sample.stored, Sample.listed 1, Sample.listed 0]
          ((Sample.filling ++ Sample.filling).push ⟨.returnValue, 9, 6⟩)) := by
  have hapart : ∀ ref,
      (Sample.shelf #[.empty, .empty] #[]).store.Reaches (Sample.filler 0).arguments ref →
      ¬ (Sample.shelf #[.empty, .empty] #[]).store.Reaches (Sample.filler 1).arguments ref := by
    intro ref h h'
    cases (Sample.reaches_filler h).symm.trans (Sample.reaches_filler h')
  have hdrive : Sample.fiveHost.drive 6 1 (Sample.shelf #[.empty, .empty] #[]) Sample.fill
      [.array ⟨0⟩] none = some (.done (.array ⟨2⟩), 2,
        Sample.shelf #[Sample.stored, .empty, Sample.listed 0]
          (Sample.filling.push ⟨.returnValue, 9, 6⟩)) := by
    decide +kernel
  have hfirst := (interleaved_macros_undisturbed (Sample.filler_secluded (by decide))
    (Sample.filler_secluded (by decide)) hapart Sample.fillers_interleaved).1
  rcases hfirst.follows hdrive trivial with ⟨-, status, hstatus, hsame⟩ | ⟨hlt, -⟩
  · cases hstatus
    exact ⟨6, 1, _, hdrive, hsame⟩
  · exact absurd hlt (by decide)

end Host

end MacroMachine
