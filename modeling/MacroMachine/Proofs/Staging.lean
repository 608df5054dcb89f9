import MacroMachine.Proofs.Branches

/-!
# What an assembler holds is consistent

An assembler keeps its slots, the list of its open operands and the stack of its open loops apart,
and many operations change two of them at once.  This module has the invariant that ties them
together (`WellFormed`): the sites that the lists name are branch operands, no open operand is listed
twice, and the outermost loop begins with a marker.  It holds whatever an assembler is asked, in
whatever order and with whatever sites, targets and blocks.

*Failures.*  An operation that is refused leaves the assembler as it was.  This is plain for all
operations but one.  Closing a loop patches operands as it takes them off the stack, and only the
invariant tells that it cannot break off on the way.

*Blocks.*  When two blocks change places, every slot goes where `relocate` sends it, and no two slots
go to one place.  So a site that has moved names the slot that it named before.
-/

namespace MacroMachine

theorem LoopEntry.site?_relocate (move : Nat → Nat) (entry : LoopEntry) :
    (entry.relocate move).site? = entry.site?.map move := by
  cases entry <;> rfl

namespace Assembler

variable {a a' : Assembler} {e : AssemblyError} {site : Nat}

/-! ## Operations -/

/-- Everything that can be asked of an assembler. -/
inductive Operation where
  /-- Something that can be asked while a program is under construction. -/
  | request (r : Request)
  | swapBlocks (start boundary stop : Nat)
  | begin (t : SymbolTable)
  | finish (t : SymbolTable)

/-- Carries out an operation. -/
def Operation.perform : Operation → Assembly Unit
  | .request r => (fun _ => ()) <$> r.perform
  | .swapBlocks start boundary stop => fun a => .ok () (a.swapBlocks start boundary stop)
  | .begin t => fun a => .ok () (a.begin t).1
  | .finish t => fun a => .ok () (a.finish t).2.1

/-- The assembler after an operation, also after one that was refused. -/
def Operation.apply (a : Assembler) (op : Operation) : Assembler :=
  match op.perform a with
  | .ok _ a' => a'
  | .error _ a' => a'

/-- A new assembler after some operations. -/
def after (limits : AssemblerLimits) (ops : List Operation) : Assembler :=
  ops.foldl Operation.apply (new limits)

/-! ## The invariant -/

/-- What an assembler holds fits its limits and belongs together. -/
structure WellFormed (a : Assembler) : Prop where
  slots : a.code.size ≤ a.limits.programSize
  entries : a.loops.length ≤ a.limits.loopStackSize
  rooted : Rooted a.loops
  distinct : a.pending.Nodup
  unresolved : ∀ site ∈ a.pending, a.isBranchSite site
  registrable : Registrable a a.loops

theorem wellFormed_new (limits : AssemblerLimits) : (new limits).WellFormed where
  slots := Nat.zero_le _
  entries := Nat.zero_le _
  rooted := nofun
  distinct := .nil
  unresolved := nofun
  registrable := nofun

theorem room_of_emit {slot : Instruction} (h : emit slot a = .ok site a') :
    a.code.size < a.limits.programSize := by
  rw [emit] at h
  split at h
  · cases h
  · next hroom => exact Nat.lt_of_not_le hroom

namespace WellFormed

/-- One more slot, which may be an open operand. -/
theorem push {slot : Instruction} {pending : List Nat} (h : a.WellFormed)
    (hroom : a.code.size < a.limits.programSize)
    (hpending : pending = a.pending ∨
      pending = a.code.size :: a.pending ∧ ∃ n, slot = .immediate n) :
    WellFormed { a with code := a.code.push slot, pending } where
  slots := by
    rw [Array.size_push]
    exact hroom
  entries := h.entries
  rooted := h.rooted
  distinct := by
    rcases hpending with rfl | ⟨rfl, -⟩
    · exact h.distinct
    · refine List.nodup_cons.2 ⟨fun hmem => ?_, h.distinct⟩
      exact Nat.lt_irrefl _ (lt_of_isBranchSite (h.unresolved _ hmem))
  unresolved := by
    intro site hsite
    rcases hpending with rfl | ⟨rfl, n, rfl⟩
    · exact isBranchSite_push rfl (h.unresolved site hsite)
    · rcases List.mem_cons.1 hsite with rfl | hsite
      · exact isBranchSite_iff.2 ⟨n, Array.getElem?_push_size⟩
      · exact isBranchSite_push rfl (h.unresolved site hsite)
  registrable := fun entry hentry site hsite =>
    isBranchSite_push rfl (h.registrable entry hentry site hsite)

theorem emit {slot : Instruction} (h : a.WellFormed) (heq : Assembler.emit slot a = .ok site a') :
    a'.WellFormed ∧ a'.limits = a.limits := by
  obtain ⟨-, rfl⟩ := emit_eq_ok heq
  exact ⟨h.push (room_of_emit heq) (.inl rfl), rfl⟩

theorem emitBranch {target : Option Nat} (h : a.WellFormed)
    (heq : Assembler.emitBranch target a = .ok site a') : a'.WellFormed ∧ a'.limits = a.limits := by
  cases target with
  | some target => exact h.emit heq
  | none =>
    cases hemit : Assembler.emit (.immediate 0) a with
    | error e a' =>
      simp only [Assembler.emitBranch, hemit] at heq
      cases heq
    | ok site a' =>
      simp only [Assembler.emitBranch, hemit] at heq
      cases heq
      have hroom := room_of_emit hemit
      obtain ⟨rfl, rfl⟩ := emit_eq_ok hemit
      exact ⟨h.push hroom (.inr ⟨rfl, 0, rfl⟩), rfl⟩

/-- An operand that gets a target is no longer open. -/
theorem patched (h : a.WellFormed) (hsite : a.isBranchSite site) (target : Nat) :
    (a.patched site target).WellFormed where
  slots := by
    rw [Assembler.patched, Array.size_setIfInBounds]
    exact h.slots
  entries := h.entries
  rooted := h.rooted
  distinct := h.distinct.filter _
  unresolved := fun other hother =>
    (isBranchSite_patched hsite).2 (h.unresolved other (List.mem_filter.1 hother).1)
  registrable := fun entry hentry other hother =>
    (isBranchSite_patched hsite).2 (h.registrable entry hentry other hother)

theorem patch {target : Nat} (h : a.WellFormed)
    (heq : Assembler.patch site target a = .ok () a') : a'.WellFormed ∧ a'.limits = a.limits := by
  rw [Assembler.patch] at heq
  split at heq
  · next hsite =>
    cases heq
    exact ⟨h.patched hsite target, rfl⟩
  · cases heq

/-! ## Loops -/

/-- One more entry on the stack of loops: a marker, or an operand while a loop is open. -/
theorem pushLoopEntry {entry : LoopEntry} (h : a.WellFormed)
    (hrooted : entry = .marker ∨ a.loops ≠ [])
    (hsite : ∀ site, entry.site? = some site → a.isBranchSite site)
    (heq : Assembler.pushLoopEntry entry a = .ok () a') :
    a'.WellFormed ∧ a'.limits = a.limits := by
  obtain ⟨hroom, rfl⟩ := pushLoopEntry_eq_ok heq
  refine ⟨⟨h.slots, hroom, ?_, h.distinct, h.unresolved, ?_⟩, rfl⟩
  · by_cases hempty : a.loops = []
    · rcases hrooted with rfl | hne
      · rw [hempty]
        rintro last hlast
        exact (Option.some.inj hlast).symm
      · exact absurd hempty hne
    · exact h.rooted.cons hempty entry
  · intro other hother site hnames
    rcases List.mem_cons.1 hother with rfl | hother
    · exact hsite site hnames
    · exact h.registrable other hother site hnames

theorem addBreak (h : a.WellFormed) (heq : Assembler.addBreak site a = .ok () a') :
    a'.WellFormed ∧ a'.limits = a.limits := by
  obtain ⟨hopen, hsite, hpush⟩ := addBreak_eq_ok heq
  refine h.pushLoopEntry (.inr hopen) (fun named hnamed => ?_) hpush
  cases hnamed
  exact hsite

theorem addContinue (h : a.WellFormed) (heq : Assembler.addContinue site a = .ok () a') :
    a'.WellFormed ∧ a'.limits = a.limits := by
  obtain ⟨hopen, hsite, hpush⟩ := addContinue_eq_ok heq
  refine h.pushLoopEntry (.inr hopen) (fun named hnamed => ?_) hpush
  cases hnamed
  exact hsite

/-- The newest entry of the stack of loops is taken off. -/
theorem dropEntry {entry : LoopEntry} {loops : List LoopEntry} (h : a.WellFormed)
    (hloops : a.loops = entry :: loops) : WellFormed { a with loops } where
  slots := h.slots
  entries := by
    have hfit := h.entries
    rw [hloops, List.length_cons] at hfit
    exact Nat.le_of_succ_le hfit
  rooted := by
    have hrooted := h.rooted
    rw [hloops] at hrooted
    exact hrooted.tail
  distinct := h.distinct
  unresolved := h.unresolved
  registrable := fun other hother site hsite =>
    h.registrable other (hloops ▸ List.mem_cons_of_mem _ hother) site hsite

/-- While a loop is open, closing it does not break off: every entry above the marker names a branch
operand, also after others have been patched, and there is a marker below. -/
theorem closeEntries {loops : List LoopEntry} (b c : Nat) (h : a.WellFormed)
    (hloops : a.loops = loops) (hopen : loops ≠ []) :
    ∃ a', Assembler.closeEntries b c loops a = .ok () a' ∧ a'.WellFormed ∧
      a'.limits = a.limits := by
  induction loops generalizing a with
  | nil => exact absurd rfl hopen
  | cons entry loops ih =>
    have hrest := h.dropEntry hloops
    cases hsite : entry.site? with
    | none =>
      obtain rfl := eq_marker hsite
      exact ⟨{ a with loops }, rfl, hrest, rfl⟩
    | some site =>
      have hbranch : a.isBranchSite site :=
        h.registrable entry (hloops ▸ List.mem_cons_self) site hsite
      have hinner : loops ≠ [] := by
        rintro rfl
        cases h.rooted entry (by rw [hloops]; rfl)
        cases hsite
      rw [closeEntries_cons hsite hbranch]
      exact ih (hrest.patched hbranch (entry.target b c)) rfl hinner

/-- Closing a loop fails if no loop is open, and in no other case. -/
theorem closeLoop_cases (b c : Nat) (h : a.WellFormed) :
    a.loops = [] ∧ closeLoop b c a = .error .loopStackUnderflow a ∨
      a.loops ≠ [] ∧ ∃ a', closeLoop b c a = .ok () a' ∧ a'.WellFormed ∧ a'.limits = a.limits := by
  by_cases hempty : a.loops = []
  · refine .inl ⟨hempty, ?_⟩
    rw [closeLoop, hempty, Assembler.closeEntries, ← hempty]
  · exact .inr ⟨hempty, h.closeEntries b c rfl hempty⟩

end WellFormed

/-! ## Blocks -/

section Blocks

variable {start boundary stop : Nat}

/-- No two slots go to one place. -/
theorem relocate_inj (hstart : start ≤ boundary) (hstop : boundary ≤ stop) {i j : Nat}
    (h : relocate start boundary stop i = relocate start boundary stop j) : i = j := by
  unfold relocate at h
  grind

theorem size_swapBlocks (a : Assembler) (start boundary stop : Nat) :
    (a.swapBlocks start boundary stop).code.size = a.code.size := by
  unfold swapBlocks
  split
  · next hblocks =>
    simp only [Array.size_append, Array.size_extract]
    omega
  · rfl

/-- Every slot goes where it is relocated to. -/
theorem getElem?_swapBlocks (a : Assembler) (hstart : start ≤ boundary) (hstop : boundary ≤ stop)
    (hsize : stop ≤ a.code.size) (i : Nat) :
    (a.swapBlocks start boundary stop).code[relocate start boundary stop i]? = a.code[i]? := by
  rw [swapBlocks, if_pos ⟨hstart, hstop, hsize⟩]
  simp only [Array.getElem?_append, Array.getElem?_extract, Array.size_append, Array.size_extract]
  unfold relocate
  grind

/-- Moved entries begin with a marker if the entries do. -/
theorem Rooted.relocate {loops : List LoopEntry} (h : Rooted loops) (move : Nat → Nat) :
    Rooted (loops.map (LoopEntry.relocate move)) := by
  intro last hlast
  rw [List.getLast?_map] at hlast
  obtain ⟨entry, hentry, rfl⟩ := Option.map_eq_some_iff.1 hlast
  rw [h entry hentry]
  rfl

/-- The sites that the lists name move along with their slots. -/
theorem WellFormed.swapBlocks (h : a.WellFormed) (start boundary stop : Nat) :
    (a.swapBlocks start boundary stop).WellFormed ∧
      (a.swapBlocks start boundary stop).limits = a.limits := by
  by_cases hblocks : start ≤ boundary ∧ boundary ≤ stop ∧ stop ≤ a.code.size
  · obtain ⟨hstart, hstop, hsize⟩ := hblocks
    have hmoved : ∀ site, a.isBranchSite site →
        (a.swapBlocks start boundary stop).isBranchSite (relocate start boundary stop site) := by
      intro site hsite
      rw [isBranchSite_congr (getElem?_swapBlocks a hstart hstop hsize site)]
      exact hsite
    have hpending : (a.swapBlocks start boundary stop).pending =
        a.pending.map (relocate start boundary stop) := by
      rw [Assembler.swapBlocks, if_pos ⟨hstart, hstop, hsize⟩]
    have hloops : (a.swapBlocks start boundary stop).loops =
        a.loops.map (LoopEntry.relocate (relocate start boundary stop)) := by
      rw [Assembler.swapBlocks, if_pos ⟨hstart, hstop, hsize⟩]
    have hlimits : (a.swapBlocks start boundary stop).limits = a.limits := by
      rw [Assembler.swapBlocks, if_pos ⟨hstart, hstop, hsize⟩]
    refine ⟨⟨?_, ?_, ?_, ?_, ?_, ?_⟩, hlimits⟩
    · rw [size_swapBlocks, hlimits]
      exact h.slots
    · rw [hloops, hlimits, List.length_map]
      exact h.entries
    · rw [hloops]
      exact h.rooted.relocate _
    · rw [hpending]
      exact List.pairwise_map.2 (h.distinct.imp fun hne heq => hne (relocate_inj hstart hstop heq))
    · rw [hpending]
      intro site hsite
      obtain ⟨old, hold, rfl⟩ := List.mem_map.1 hsite
      exact hmoved old (h.unresolved old hold)
    · rw [hloops]
      intro entry hentry site hsite
      obtain ⟨old, hold, rfl⟩ := List.mem_map.1 hentry
      rw [LoopEntry.site?_relocate] at hsite
      obtain ⟨origin, horigin, rfl⟩ := Option.map_eq_some_iff.1 hsite
      exact hmoved origin (h.registrable old hold origin horigin)
  · rw [Assembler.swapBlocks, if_neg hblocks]
    exact ⟨h, rfl⟩

end Blocks

/-! ## All operations -/

theorem WellFormed.request {r : Request} {answer : Option Nat} (h : a.WellFormed)
    (heq : r.perform a = .ok answer a') : a'.WellFormed ∧ a'.limits = a.limits := by
  cases r <;> obtain ⟨result, hdone, -⟩ := map_eq_ok heq
  case emit => exact h.emit hdone
  case emitBranch => exact h.emitBranch hdone
  case patch => exact h.patch hdone
  case openLoop => exact h.pushLoopEntry (.inl rfl) (fun _ hsite => by cases hsite) hdone
  case addBreak => exact h.addBreak hdone
  case addContinue => exact h.addContinue hdone
  case closeLoop b c =>
    rcases h.closeLoop_cases b c with ⟨-, hfails⟩ | ⟨-, after, hcloses, hafter⟩
    · cases hfails.symm.trans hdone
    · cases hcloses.symm.trans hdone
      exact hafter

/-- An operation that is refused changes nothing. -/
theorem WellFormed.refused {op : Operation} (h : a.WellFormed)
    (heq : op.perform a = .error e a') : a' = a := by
  cases op with
  | request r =>
    have heq := map_eq_error heq
    cases r <;> have heq := map_eq_error heq
    case emit => exact emit_eq_error heq
    case emitBranch => exact emitBranch_eq_error heq
    case patch => exact patch_eq_error heq
    case openLoop => exact pushLoopEntry_eq_error heq
    case addBreak => exact addBreak_eq_error heq
    case addContinue => exact addContinue_eq_error heq
    case closeLoop =>
      rcases h.closeLoop_cases _ _ with ⟨-, hfails⟩ | ⟨-, after, hcloses, -⟩
      · cases hfails.symm.trans heq
        rfl
      · cases hcloses.symm.trans heq
  | swapBlocks start boundary stop => cases heq
  | begin t => cases heq
  | finish t => cases heq

theorem WellFormed.apply (h : a.WellFormed) (op : Operation) :
    (op.apply a).WellFormed ∧ (op.apply a).limits = a.limits := by
  rw [Operation.apply]
  cases heq : op.perform a with
  | error e a' =>
    obtain rfl := h.refused heq
    exact ⟨h, rfl⟩
  | ok answer a' =>
    cases op with
    | request r =>
      obtain ⟨answer, hdone, -⟩ := map_eq_ok heq
      exact h.request hdone
    | swapBlocks start boundary stop =>
      cases heq
      exact h.swapBlocks start boundary stop
    | begin t =>
      cases heq
      exact ⟨wellFormed_new a.limits, rfl⟩
    | finish t =>
      cases heq
      exact ⟨wellFormed_new a.limits, rfl⟩

theorem wellFormed_after (limits : AssemblerLimits) (ops : List Operation) :
    (after limits ops).WellFormed ∧ (after limits ops).limits = limits := by
  have hrun : ∀ a : Assembler, a.WellFormed →
      (ops.foldl Operation.apply a).WellFormed ∧
        (ops.foldl Operation.apply a).limits = a.limits := by
    induction ops with
    | nil => exact fun a h => ⟨h, rfl⟩
    | cons op ops ih =>
      intro a h
      obtain ⟨happly, hlimits⟩ := h.apply op
      obtain ⟨hrest, hrestLimits⟩ := ih (op.apply a) happly
      exact ⟨hrest, hrestLimits.trans hlimits⟩
  exact hrun (new limits) (wellFormed_new limits)

/-- The finished program has the slots of the assembler, and its open operands lead to the end; none
of them lies outside the code. -/
theorem WellFormed.getElem?_finish (h : a.WellFormed) (t : SymbolTable) (s : Nat) :
    (a.finish t).1.code[s]? =
      if s ∈ a.pending then some (.immediate (relative s a.code.size)) else a.code[s]? := by
  have hcode := getElem?_resolved a.code.size a.pending a.code s
  by_cases hs : s ∈ a.pending
  · rw [if_pos ⟨hs, lt_of_isBranchSite (h.unresolved s hs)⟩] at hcode
    rw [if_pos hs]
    exact hcode
  · rw [if_neg fun hboth => hs hboth.1] at hcode
    rw [if_neg hs]
    exact hcode

/-- What an assembler holds stays consistent, whatever it is asked.  After any operations, refused
ones among them, it keeps to its limits; its outermost loop begins with a marker; its open operands
are distinct; and they and the operands of its open loops are immediates in the code.  So finishing
the program meets no site outside the code, closing a loop fails exactly if none is open and then
says so, and an operation that is refused changes nothing. -/
theorem stays_consistent (limits : AssemblerLimits) (ops : List Operation) :
    let a := after limits ops
    (a.code.size ≤ limits.programSize ∧ a.loops.length ≤ limits.loopStackSize ∧
      (a.loops = [] ∨ a.loops.getLast? = some .marker) ∧ a.pending.Nodup ∧
      (∀ site ∈ a.pending, ∃ n, a.code[site]? = some (.immediate n)) ∧
      ∀ entry ∈ a.loops, ∀ site, entry.site? = some site →
        ∃ n, a.code[site]? = some (.immediate n)) ∧
    (∀ t, (∀ site ∈ a.pending, site < a.code.size) ∧
      ∀ s, (a.finish t).1.code[s]? =
        if s ∈ a.pending then some (.immediate (relative s a.code.size)) else a.code[s]?) ∧
    (∀ b c, ((∃ e a', closeLoop b c a = .error e a') ↔ a.loops = []) ∧
      ∀ e a', closeLoop b c a = .error e a' → e = .loopStackUnderflow) ∧
    ∀ op e a', Operation.perform op a = .error e a' → a' = a := by
  intro a
  obtain ⟨h, hlimits⟩ : a.WellFormed ∧ a.limits = limits := wellFormed_after limits ops
  refine ⟨⟨?_, ?_, ?_, h.distinct, ?_, ?_⟩, ?_, ?_, ?_⟩
  · rw [← hlimits]
    exact h.slots
  · rw [← hlimits]
    exact h.entries
  · cases hlast : a.loops.getLast? with
    | none => exact .inl (List.getLast?_eq_none_iff.1 hlast)
    | some entry => exact .inr (congrArg some (h.rooted entry hlast))
  · exact fun site hsite => isBranchSite_iff.1 (h.unresolved site hsite)
  · exact fun entry hentry site hsite =>
      isBranchSite_iff.1 (h.registrable entry hentry site hsite)
  · exact fun t => ⟨fun site hsite => lt_of_isBranchSite (h.unresolved site hsite),
      h.getElem?_finish t⟩
  · intro b c
    rcases h.closeLoop_cases b c with ⟨hempty, hfails⟩ | ⟨hopen, after, hcloses, -⟩
    · refine ⟨iff_of_true ⟨_, _, hfails⟩ hempty, fun e a' heq => ?_⟩
      cases hfails.symm.trans heq
      rfl
    · refine ⟨iff_of_false ?_ hopen, fun e a' heq => ?_⟩
      · rintro ⟨e, a', heq⟩
        cases hcloses.symm.trans heq
      · cases hcloses.symm.trans heq
  · exact fun op e a' heq => h.refused heq

end Assembler

end MacroMachine
