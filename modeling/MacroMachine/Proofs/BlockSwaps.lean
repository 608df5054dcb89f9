import MacroMachine.Proofs.Staging
import Mathlib.Logic.Function.Basic

/-!
# Swapped blocks

Swapping two neighbouring blocks moves slots, and with them the sites that the assembler remembers.
The distances in the moved slots stay as they are.  This module says what that comes to.

*One swap.*  No slot is lost and none is doubled, every remembered site names the slot that it named
before, and a branch that stays within one block, or outside both, leads to the slot that it led to.
Swapping the blocks back undoes all of this.

*Many swaps.*  An open operand is followed through whatever an assembler is asked (`follow`).  Until
something gives it a target (`Operation.Resolves`) its site stays on the list of open operands, so
that in the finished program it leads to the end.
-/

namespace MacroMachine

namespace Assembler

variable {a a' : Assembler} {start boundary stop site target : Nat}

/-! ## One swap -/

/-- The bounds are those of two neighbouring blocks of the code. -/
def Neighbouring (a : Assembler) (start boundary stop : Nat) : Prop :=
  start ≤ boundary ∧ boundary ≤ stop ∧ stop ≤ a.position

instance (a : Assembler) (start boundary stop : Nat) :
    Decidable (a.Neighbouring start boundary stop) :=
  inferInstanceAs (Decidable (_ ∧ _))

/-- Both places lie in the first block, or both in the second, or both in neither. -/
def Together (start boundary stop i j : Nat) : Prop :=
  (start ≤ i ∧ i < boundary) ∧ (start ≤ j ∧ j < boundary) ∨
  (boundary ≤ i ∧ i < stop) ∧ (boundary ≤ j ∧ j < stop) ∨
  (i < start ∨ stop ≤ i) ∧ (j < start ∨ stop ≤ j)

/-- The slot at a site is a branch operand whose distance leads to a target. -/
def LeadsTo (a : Assembler) (site target : Nat) : Prop :=
  ∃ n : Int64, a.code[site]? = some (.immediate n) ∧ (site : Int) + n.toInt = target

/-- Swapping the blocks back takes every place to where it was. -/
theorem relocate_relocate (hstart : start ≤ boundary) (hstop : boundary ≤ stop) (i : Nat) :
    relocate start (start + (stop - boundary)) stop (relocate start boundary stop i) = i := by
  unfold relocate
  grind

/-- The block that was second is now first, so swapping back is the same with the blocks in the
other order. -/
theorem relocate_relocate_back (hstart : start ≤ boundary) (hstop : boundary ≤ stop) (i : Nat) :
    relocate start boundary stop (relocate start (start + (stop - boundary)) stop i) = i := by
  have hback : start + (stop - (start + (stop - boundary))) = boundary := by omega
  have h := @relocate_relocate start (start + (stop - boundary)) stop (Nat.le_add_right _ _)
    (by omega) i
  rw [hback] at h
  exact h

theorem relocate_bijective (hstart : start ≤ boundary) (hstop : boundary ≤ stop) :
    Function.Bijective (relocate start boundary stop) :=
  Function.bijective_iff_has_inverse.2
    ⟨_, relocate_relocate hstart hstop, relocate_relocate_back hstart hstop⟩

/-- Places that lie together keep their distance. -/
theorem relocate_sub_of_together {i j : Nat} (hstart : start ≤ boundary) (hstop : boundary ≤ stop)
    (h : Together start boundary stop i j) :
    (relocate start boundary stop j : Int) - relocate start boundary stop i = (j : Int) - i := by
  unfold Together at h
  unfold relocate
  grind

/-- Bounds of no blocks change nothing. -/
theorem swapBlocks_of_not_neighbouring (h : ¬ a.Neighbouring start boundary stop) :
    a.swapBlocks start boundary stop = a :=
  if_neg h

section Neighbouring

variable (h : a.Neighbouring start boundary stop)

include h

theorem Neighbouring.getElem? (i : Nat) :
    (a.swapBlocks start boundary stop).code[relocate start boundary stop i]? = a.code[i]? :=
  getElem?_swapBlocks a h.1 h.2.1 h.2.2 i

theorem Neighbouring.swapBlocks_eq :
    a.swapBlocks start boundary stop =
      { a with
        code := (a.swapBlocks start boundary stop).code
        pending := a.pending.map (relocate start boundary stop)
        loops := a.loops.map (LoopEntry.relocate (relocate start boundary stop)) } := by
  have hbounds : start ≤ boundary ∧ boundary ≤ stop ∧ stop ≤ a.code.size := h
  rw [swapBlocks, if_pos hbounds]

theorem Neighbouring.pending :
    (a.swapBlocks start boundary stop).pending = a.pending.map (relocate start boundary stop) :=
  congrArg Assembler.pending h.swapBlocks_eq

theorem Neighbouring.loops :
    (a.swapBlocks start boundary stop).loops =
      a.loops.map (LoopEntry.relocate (relocate start boundary stop)) :=
  congrArg Assembler.loops h.swapBlocks_eq

/-- The swapped blocks are neighbours too. -/
theorem Neighbouring.back :
    (a.swapBlocks start boundary stop).Neighbouring start (start + (stop - boundary)) stop := by
  refine ⟨Nat.le_add_right _ _, ?_, ?_⟩
  · have hstart := h.1
    have hstop := h.2.1
    omega
  · rw [position, size_swapBlocks]
    exact h.2.2

/-- A branch moves along with its target. -/
theorem Neighbouring.leadsTo (htogether : Together start boundary stop site target)
    (hleads : a.LeadsTo site target) :
    (a.swapBlocks start boundary stop).LeadsTo (relocate start boundary stop site)
      (relocate start boundary stop target) := by
  obtain ⟨n, hslot, htarget⟩ := hleads
  refine ⟨n, (h.getElem? site).trans hslot, ?_⟩
  have hdistance := relocate_sub_of_together h.1 h.2.1 htogether
  omega

/-- Swapping back restores everything. -/
theorem Neighbouring.swapBlocks_swapBlocks :
    (a.swapBlocks start boundary stop).swapBlocks start (start + (stop - boundary)) stop = a := by
  have hentry : ∀ entry : LoopEntry,
      (entry.relocate (relocate start boundary stop)).relocate
        (relocate start (start + (stop - boundary)) stop) = entry := by
    intro entry
    cases entry <;> simp [LoopEntry.relocate, relocate_relocate h.1 h.2.1]
  -- every place of the code is one that something has been moved to
  have hcode : ((a.swapBlocks start boundary stop).swapBlocks start
      (start + (stop - boundary)) stop).code = a.code := by
    refine Array.ext_getElem? fun i => ?_
    have hmoved := h.back.getElem? (relocate start boundary stop i)
    rw [relocate_relocate h.1 h.2.1, h.getElem?] at hmoved
    exact hmoved
  have hpending : (a.pending.map (relocate start boundary stop)).map
      (relocate start (start + (stop - boundary)) stop) = a.pending := by
    rw [List.map_map]
    exact List.map_id'' (relocate_relocate h.1 h.2.1) a.pending
  have hloops : (a.loops.map (LoopEntry.relocate (relocate start boundary stop))).map
      (LoopEntry.relocate (relocate start (start + (stop - boundary)) stop)) = a.loops := by
    rw [List.map_map]
    exact List.map_id'' hentry a.loops
  rw [h.back.swapBlocks_eq, hcode, h.swapBlocks_eq, hpending, hloops]

end Neighbouring

/-! ## Following an open operand -/

/-- Where an operation puts the slot of a site. -/
def Operation.place (a : Assembler) (site : Nat) : Operation → Nat
  | .swapBlocks start boundary stop =>
    if a.Neighbouring start boundary stop then relocate start boundary stop site else site
  | _ => site

/-- An operation that gives the operand at a site a target, or drops the program it belongs to. -/
def Operation.Resolves (a : Assembler) (site : Nat) : Operation → Prop
  | .request (.patch site' _) => site' = site
  | .request (.closeLoop _ _) => ∃ entry ∈ openEntries a.loops 0, entry.site? = some site
  | .begin _ => True
  | .finish _ => True
  | _ => False

/-- Where the slot of a site is after some operations. -/
def follow (a : Assembler) (site : Nat) : List Operation → Nat
  | [] => site
  | op :: ops => follow (op.apply a) (op.place a site) ops

/-- Nothing gives the operand at a site a target, wherever its slot goes meanwhile. -/
def StaysOpen (a : Assembler) (site : Nat) : List Operation → Prop
  | [] => True
  | op :: ops => ¬ op.Resolves a site ∧ StaysOpen (op.apply a) (op.place a site) ops

/-- Closing a loop leaves the operands open that are not registered with it. -/
theorem mem_pending_closeEntries {b c : Nat} {loops : List LoopEntry}
    (hregistrable : Registrable a loops) (hclose : closeEntries b c loops a = .ok () a')
    (hopen : site ∈ a.pending)
    (hother : ∀ entry ∈ openEntries loops 0, entry.site? ≠ some site) : site ∈ a'.pending := by
  induction loops generalizing a with
  | nil => cases hclose
  | cons entry loops ih =>
    cases hsite : entry.site? with
    | none =>
      obtain rfl := eq_marker hsite
      cases hclose
      exact hopen
    | some named =>
      have hbranch := hregistrable entry List.mem_cons_self named hsite
      rw [closeEntries_cons hsite hbranch] at hclose
      rw [openEntries_zero hsite] at hother
      refine ih ?_ hclose ?_ fun other hmem => hother other (List.mem_cons_of_mem _ hmem)
      · exact fun other hmem s hs =>
          (isBranchSite_patched hbranch).2 (hregistrable other (List.mem_cons_of_mem _ hmem) s hs)
      · have hne : site ≠ named := fun heq => hother entry List.mem_cons_self (heq ▸ hsite)
        exact List.mem_filter.2 ⟨hopen, bne_iff_ne.2 hne⟩

/-- A request that does not resolve an open operand leaves it open. -/
theorem WellFormed.mem_pending_request {r : Request} {answer : Option Nat} (h : a.WellFormed)
    (heq : r.perform a = .ok answer a') (hopen : site ∈ a.pending)
    (hstays : ¬ (Operation.request r).Resolves a site) : site ∈ a'.pending := by
  cases r <;> obtain ⟨result, hdone, -⟩ := map_eq_ok heq
  case emit =>
    obtain ⟨-, rfl⟩ := emit_eq_ok hdone
    exact hopen
  case emitBranch target =>
    cases target with
    | some target =>
      obtain ⟨-, rfl⟩ := emit_eq_ok hdone
      exact hopen
    | none =>
      cases hemit : Assembler.emit (.immediate 0) a with
      | error e b =>
        simp only [Assembler.emitBranch, hemit] at hdone
        cases hdone
      | ok s b =>
        simp only [Assembler.emitBranch, hemit] at hdone
        cases hdone
        obtain ⟨-, rfl⟩ := emit_eq_ok hemit
        exact List.mem_cons_of_mem _ hopen
  case patch site' target =>
    rw [Assembler.patch] at hdone
    split at hdone
    · cases hdone
      exact List.mem_filter.2 ⟨hopen, bne_iff_ne.2 fun heq => hstays heq.symm⟩
    · cases hdone
  case openLoop =>
    obtain ⟨-, rfl⟩ := pushLoopEntry_eq_ok hdone
    exact hopen
  case addBreak =>
    obtain ⟨-, rfl⟩ := pushLoopEntry_eq_ok (addBreak_eq_ok hdone).2.2
    exact hopen
  case addContinue =>
    obtain ⟨-, rfl⟩ := pushLoopEntry_eq_ok (addContinue_eq_ok hdone).2.2
    exact hopen
  case closeLoop =>
    exact mem_pending_closeEntries h.registrable hdone hopen fun entry hmem hsite =>
      hstays ⟨entry, hmem, hsite⟩

/-- An operation that does not resolve an open operand leaves it open, at its new place. -/
theorem WellFormed.mem_pending_apply (h : a.WellFormed) {op : Operation}
    (hopen : site ∈ a.pending) (hstays : ¬ op.Resolves a site) :
    op.place a site ∈ (op.apply a).pending := by
  cases op with
  | request r =>
    rw [Operation.apply]
    cases heq : (Operation.request r).perform a with
    | error e b =>
      obtain rfl := h.refused heq
      exact hopen
    | ok answer b =>
      obtain ⟨answer, hdone, -⟩ := map_eq_ok heq
      exact h.mem_pending_request hdone hopen hstays
  | swapBlocks start boundary stop =>
    change _ ∈ (a.swapBlocks start boundary stop).pending
    rw [Operation.place]
    split
    · next hblocks =>
      rw [hblocks.pending]
      exact List.mem_map_of_mem hopen
    · next hblocks =>
      rw [swapBlocks_of_not_neighbouring hblocks]
      exact hopen
  | begin t => exact absurd trivial hstays
  | finish t => exact absurd trivial hstays

/-- An operand that nothing resolves is open in the end. -/
theorem WellFormed.follow_mem_pending (h : a.WellFormed) (ops : List Operation)
    (hopen : site ∈ a.pending) (hstays : a.StaysOpen site ops) :
    (ops.foldl Operation.apply a).WellFormed ∧
      a.follow site ops ∈ (ops.foldl Operation.apply a).pending := by
  induction ops generalizing a site with
  | nil => exact ⟨h, hopen⟩
  | cons op ops ih =>
    exact ih (h.apply op).1 (h.mem_pending_apply hopen hstays.1) hstays.2

/-- An open operand leads to the end of the finished program. -/
theorem WellFormed.branchesTo_size (h : a.WellFormed) (t : SymbolTable) (hopen : site ∈ a.pending)
    (hsize : (a.finish t).1.size < 4611686018427387904) :
    (a.finish t).1.BranchesTo site (a.finish t).1.size := by
  have hend : (a.finish t).1.size = a.code.size := size_finish a t
  have hslot := h.getElem?_finish t site
  rw [if_pos hopen, ← hend] at hslot
  have hlt : site < (a.finish t).1.size := (Array.getElem?_eq_some_iff.1 hslot).1
  exact Program.branchesTo_of_distance hslot (toInt_relative (Nat.lt_trans hlt hsize) hsize)

/-- What swapping two blocks does to an assembler that was asked anything before.  If the bounds are
those of neighbouring blocks, every slot goes where it is relocated to, and nothing else goes there;
the open operands and those of the open loops are the same slots as before; a branch whose operand
and target lie together leads to the slot that it led to; and swapping back restores the assembler.
With any other bounds nothing changes.  So an operand that is open and is given no target, whatever
blocks are swapped meanwhile, leads to the end of the finished program.  (The distance is exact for
programs below 2 ^ 62.) -/
theorem swapBlocks_relocates (limits : AssemblerLimits) (ops : List Operation) :
    let a := after limits ops
    (∀ start boundary stop,
      let move := relocate start boundary stop
      let b := a.swapBlocks start boundary stop
      (start ≤ boundary ∧ boundary ≤ stop ∧ stop ≤ a.position →
        (Function.Bijective move ∧ b.position = a.position ∧ ∀ i, b.code[move i]? = a.code[i]?) ∧
        (b.pending = a.pending.map move ∧
          b.loops = a.loops.map (LoopEntry.relocate move) ∧
          (∀ site ∈ a.pending, b.code[move site]? = a.code[site]?) ∧
          ∀ entry ∈ a.loops, ∀ site, entry.site? = some site →
            (entry.relocate move).site? = some (move site) ∧
              b.code[move site]? = a.code[site]?) ∧
        (∀ site target, Together start boundary stop site target → a.LeadsTo site target →
          b.LeadsTo (move site) (move target) ∧ b.code[move target]? = a.code[target]?) ∧
        b.swapBlocks start (start + (stop - boundary)) stop = a) ∧
      (¬ (start ≤ boundary ∧ boundary ≤ stop ∧ stop ≤ a.position) → b = a)) ∧
    ∀ site ∈ a.pending, ∀ later, a.StaysOpen site later → ∀ t,
      let b := later.foldl Operation.apply a
      a.follow site later ∈ b.pending ∧
        ((b.finish t).1.size < 4611686018427387904 →
          (b.finish t).1.BranchesTo (a.follow site later) (b.finish t).1.size) := by
  intro a
  refine ⟨fun start boundary stop => ⟨fun h => ?_, fun h => ?_⟩, ?_⟩
  · replace h : a.Neighbouring start boundary stop := h
    exact ⟨⟨relocate_bijective h.1 h.2.1, size_swapBlocks a start boundary stop, h.getElem?⟩,
      ⟨h.pending, h.loops, fun site _ => h.getElem? site, fun entry _ site hsite =>
        ⟨by rw [LoopEntry.site?_relocate, hsite, Option.map_some], h.getElem? site⟩⟩,
      fun site target htogether hleads => ⟨h.leadsTo htogether hleads, h.getElem? target⟩,
      h.swapBlocks_swapBlocks⟩
  · exact swapBlocks_of_not_neighbouring h
  · intro site hopen later hstays t b
    obtain ⟨hb, hopen⟩ :=
      (wellFormed_after limits ops).1.follow_mem_pending later hopen hstays
    exact ⟨hopen, hb.branchesTo_size t hopen⟩

end Assembler

namespace Sample

open Assembler

/-- A condition before the body of its loop: a branch whose operand at 1 stays open, and a branch
from 4 back to 2 that is registered with the loop too. -/
def conditionFirst : List Operation :=
  [.request .openLoop, .request (.emit (.op .branchTrue)), .request (.emitBranch none),
    .request (.emit (.op .duplicate)), .request (.emit (.op .branch)),
    .request (.emitBranch (some 2)), .request (.addContinue 4)]

/-- The condition goes behind the body, the loop is closed and one more block is moved. -/
def conditionLast : List Operation :=
  [.swapBlocks 0 2 5, .request (.closeLoop 5 0), .request (.emit (.op .duplicate)),
    .swapBlocks 3 5 6]

end Sample

/-- The condition changes places with the body and comes back.  Its open operand is moved twice and
leads to the end of the program from where it comes to lie. -/
theorem Assembler.swapBlocks_relocates_conditionFirst :
    let a := after {} Sample.conditionFirst
    let b := Sample.conditionLast.foldl Operation.apply a
    ((a.swapBlocks 0 2 5).LeadsTo 2 0 ∧ (a.swapBlocks 0 2 5).swapBlocks 0 3 5 = a ∧
      a.swapBlocks 2 0 5 = a) ∧
      a.follow 1 Sample.conditionLast = 5 ∧ (b.finish default).1.BranchesTo 5 6 := by
  intro a b
  obtain ⟨hswaps, hopen⟩ := swapBlocks_relocates {} Sample.conditionFirst
  obtain ⟨-, -, hleads, hback⟩ := (hswaps 0 2 5).1 (by decide +kernel)
  have htogether : Together 0 2 5 4 2 := by
    unfold Together
    decide
  have hfollow : a.follow 1 Sample.conditionLast = 5 := by decide +kernel
  have hstays : a.StaysOpen 1 Sample.conditionLast := by
    refine ⟨id, ?_, id, id, trivial⟩
    rintro ⟨entry, hmem, hsite⟩
    rw [show openEntries _ 0 = [.continueSite 2] by decide +kernel] at hmem
    cases List.mem_singleton.1 hmem
    cases hsite
  have hend := (hopen 1 (by decide +kernel) Sample.conditionLast hstays default).2
    (by decide +kernel)
  rw [hfollow, show Program.size _ = 6 by decide +kernel] at hend
  exact ⟨⟨(hleads 4 2 htogether ⟨-2, by decide +kernel, by decide⟩).1, hback,
    (hswaps 2 0 5).2 (by decide)⟩, hfollow, hend⟩

end MacroMachine
