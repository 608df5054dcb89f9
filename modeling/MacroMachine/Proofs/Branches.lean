import MacroMachine.Context
import MacroMachine.Program.Assembler

/-!
# Branches lead where they were sent

A branch operand gets its target in one of three ways: with the request that adds it, by a patch, or
by the closing of a loop that it was registered with.  The requests can come in any order and some
of them are refused.  In the finished program every branch operand leads to the target that it was
given last, or to the end of the program if it was given none; and a context that comes to the
operand finds that target.

*Logs.*  The log of a program under construction lists the requests that were granted, the newest
first.  What a program must be is said about the log alone (`Log.target?`, `Log.registered`): loops
are matched like brackets by going back through the log, and the assembler's own stack of loops and
list of open operands do not occur.

*Keeping to the log.*  An assembler keeps to a log if its slots, its open operands and its loops
are what the log says (`Keeps`).  Every request preserves this, and finishing reads the program off.
-/

namespace MacroMachine

/-- The branch operand that an entry of an open loop names. -/
def LoopEntry.site? : LoopEntry → Option Nat
  | .marker => none
  | .breakSite site => some site
  | .continueSite site => some site

/-- The target of an entry when its loop is closed. -/
def LoopEntry.target (breakTarget continueTarget : Nat) : LoopEntry → Nat
  | .marker => breakTarget
  | .breakSite _ => breakTarget
  | .continueSite _ => continueTarget

namespace Assembler

/-! ## Requests and logs -/

/-- What can be asked of an assembler while a program is under construction. -/
inductive Request where
  /-- A slot that is an opcode, a symbol or a plain immediate. -/
  | emit (slot : Instruction)
  | emitBranch (target : Option Nat)
  | patch (site target : Nat)
  | openLoop
  | addBreak (site : Nat)
  | addContinue (site : Nat)
  | closeLoop (breakTarget continueTarget : Nat)
deriving DecidableEq, Repr

/-- Carries out a request.  One that adds a slot gives its position. -/
def Request.perform : Request → Assembly (Option Nat)
  | .emit slot => some <$> Assembler.emit slot
  | .emitBranch target => some <$> Assembler.emitBranch target
  | .patch site target => (fun _ => none) <$> Assembler.patch site target
  | .openLoop => (fun _ => none) <$> Assembler.openLoop
  | .addBreak site => (fun _ => none) <$> Assembler.addBreak site
  | .addContinue site => (fun _ => none) <$> Assembler.addContinue site
  | .closeLoop breakTarget continueTarget =>
    (fun _ => none) <$> Assembler.closeLoop breakTarget continueTarget

/-- The granted requests with the positions they gave, the newest first. -/
abbrev Log := List (Request × Option Nat)

/-- An assembler and what it was asked. -/
structure Construction where
  log : Log
  assembler : Assembler
deriving DecidableEq, Repr

/-- Asks for one more thing.  What is refused is not logged. -/
def Construction.ask (x : Construction) (r : Request) : Construction :=
  match r.perform x.assembler with
  | .ok site a => { log := (r, site) :: x.log, assembler := a }
  | .error _ a => { x with assembler := a }

/-- The construction of a program by some requests, from an assembler that may hold something. -/
def construct (a : Assembler) (t : SymbolTable) (requests : List Request) : Construction :=
  requests.foldl Construction.ask { log := [], assembler := (a.begin t).1 }

/-! ## What a log says -/

/-- The target that a branch operand gets when the loop with these entries, the newest first, is
closed: the newest are served first, so the oldest has the last word. -/
def closingTarget? (breakTarget continueTarget : Nat) : List LoopEntry → Nat → Option Nat
  | [], _ => none
  | entry :: older, site =>
    (closingTarget? breakTarget continueTarget older site).or
      (if entry.site? = some site then some (entry.target breakTarget continueTarget) else none)

namespace Log

/-- What is registered with the loop that lies `depth` loops outside the innermost open one, the
newest first. -/
def registered : Log → (depth : Nat) → List LoopEntry
  | [], _ => []
  | (.openLoop, _) :: _, 0 => []
  | (.openLoop, _) :: log, depth + 1 => registered log depth
  | (.closeLoop _ _, _) :: log, depth => registered log (depth + 1)
  | (.addBreak site, _) :: log, 0 => .breakSite site :: registered log 0
  | (.addContinue site, _) :: log, 0 => .continueSite site :: registered log 0
  | _ :: log, depth => registered log depth

/-- The target that a granted request gives to a branch operand, if it gives one.  What was granted
before says which loop a request closes. -/
def aim? (before : Log) (site : Nat) : Request × Option Nat → Option Nat
  | (.emitBranch target, position) => if position = some site then target else none
  | (.patch site' target, _) => if site' = site then some target else none
  | (.closeLoop breakTarget continueTarget, _) =>
    closingTarget? breakTarget continueTarget (registered before 0) site
  | _ => none

/-- The target that was given last to a branch operand. -/
def target? : Log → (site : Nat) → Option Nat
  | [], _ => none
  | granted :: before, site => (aim? before site granted).or (target? before site)

/-- The request that added a slot. -/
def source? (log : Log) (site : Nat) : Option Request :=
  (log.find? fun granted => granted.2 = some site).map Prod.fst

end Log

/-! ## Slots and open operands -/

/-- The slot that a request adds, as long as it has no target. -/
def Request.slot : Request → Instruction
  | .emit slot => slot
  | _ => .immediate 0

variable {source source' : Nat → Option Request} {target target' : Nat → Option Nat}
  {a a' : Assembler} {log : Log} {r : Request}

/-- The slots of an assembler are those that were added, with the targets that were given; its open
operands are those that were added without a target and have been given none.  Targets are given to
immediates only. -/
structure Staged (source : Nat → Option Request) (target : Nat → Option Nat) (a : Assembler) :
    Prop where
  code : ∀ s, a.code[s]? =
    ((target s).map fun t => .immediate (relative s t)).or ((source s).map Request.slot)
  pending : ∀ s, s ∈ a.pending ↔ target s = none ∧ source s = some (.emitBranch none)
  immediate : ∀ s, target s ≠ none → ∃ r n, source s = some r ∧ r.slot = .immediate n

/-- Makes a branch operand lead to a target. -/
def patched (site target : Nat) (a : Assembler) : Assembler :=
  { a with
    code := a.code.setIfInBounds site (.immediate (relative site target))
    pending := a.pending.filter (· != site) }

theorem patch_of_branchSite {site t : Nat} (h : a.isBranchSite site) :
    patch site t a = .ok () (a.patched site t) := by
  rw [patch, if_pos h, patched]

theorem isBranchSite_iff {site : Nat} :
    a.isBranchSite site ↔ ∃ n, a.code[site]? = some (.immediate n) := by
  rw [isBranchSite]
  split
  · next n heq => exact ⟨fun _ => ⟨n, heq⟩, fun _ => rfl⟩
  · next hother => exact ⟨nofun, fun ⟨n, heq⟩ => absurd heq (hother n)⟩

theorem lt_of_isBranchSite {site : Nat} (h : a.isBranchSite site) : site < a.code.size := by
  obtain ⟨n, hn⟩ := isBranchSite_iff.1 h
  exact (Array.getElem?_eq_some_iff.1 hn).1

/-- Whether a site is a branch operand depends on its slot alone. -/
theorem isBranchSite_congr {site site' : Nat} (h : a'.code[site']? = a.code[site]?) :
    a'.isBranchSite site' = a.isBranchSite site := by
  rw [isBranchSite, isBranchSite, h]

theorem isBranchSite_push {slot : Instruction} {site : Nat} (hcode : a'.code = a.code.push slot)
    (h : a.isBranchSite site) : a'.isBranchSite site := by
  have hslot : a'.code[site]? = a.code[site]? := by
    rw [hcode, Array.getElem?_push, if_neg (Nat.ne_of_lt (lt_of_isBranchSite h))]
  rw [isBranchSite_congr hslot]
  exact h

theorem isBranchSite_patched {site site' t : Nat} (h : a.isBranchSite site) :
    (a.patched site t).isBranchSite site' ↔ a.isBranchSite site' := by
  by_cases heq : site = site'
  · subst heq
    refine iff_of_true (isBranchSite_iff.2 ⟨relative site t, ?_⟩) h
    simp [patched, lt_of_isBranchSite h]
  · simp [isBranchSite_iff, patched, heq]

namespace Staged

theorem target_eq_none (h : Staged source target a) {s : Nat} (hs : a.code.size ≤ s) :
    target s = none := by
  have hnone := h.code s
  rw [Array.getElem?_eq_none hs] at hnone
  cases htarget : target s with
  | none => rfl
  | some t => simp [htarget] at hnone

theorem source_eq_none (h : Staged source target a) {s : Nat} (hs : a.code.size ≤ s) :
    source s = none := by
  have hnone := h.code s
  rw [Array.getElem?_eq_none hs, h.target_eq_none hs] at hnone
  cases hsource : source s with
  | none => rfl
  | some r => simp [hsource] at hnone

theorem immediate_of_branchSite (h : Staged source target a) {s : Nat} (hs : a.isBranchSite s) :
    ∃ r n, source s = some r ∧ r.slot = .immediate n := by
  obtain ⟨n, hn⟩ := isBranchSite_iff.1 hs
  rw [h.code] at hn
  cases htarget : target s with
  | some t => exact h.immediate s (by simp [htarget])
  | none =>
    rw [htarget] at hn
    obtain ⟨r, hsource, hslot⟩ := Option.map_eq_some_iff.1 hn
    exact ⟨r, n, hsource, hslot⟩

/-- One more slot. -/
theorem push {t : Option Nat} {pending : List Nat} (h : Staged source target a)
    (hother : ∀ s, s ≠ a.code.size → source' s = source s ∧ target' s = target s)
    (hsource : source' a.code.size = some r) (htarget : target' a.code.size = t)
    (himmediate : t ≠ none → ∃ n, r.slot = .immediate n)
    (hpending : ∀ s, s ∈ pending ↔
      s ∈ a.pending ∨ s = a.code.size ∧ t = none ∧ r = .emitBranch none) :
    Staged source' target' { a with
      code := a.code.push ((t.map fun t => .immediate (relative a.code.size t)).getD r.slot)
      pending } where
  code s := by
    by_cases hs : s = a.code.size
    · subst hs
      cases t with
      | none => simp [hsource, htarget]
      | some t => simp [htarget]
    · rw [Array.getElem?_push, if_neg hs, (hother s hs).1, (hother s hs).2, h.code]
  pending s := by
    rw [hpending, h.pending]
    by_cases hs : s = a.code.size
    · subst hs
      simp [hsource, htarget, h.source_eq_none (Nat.le_refl _)]
    · simp [hs, hother s hs]
  immediate s hs' := by
    by_cases hs : s = a.code.size
    · subst hs
      obtain ⟨n, hn⟩ := himmediate (htarget ▸ hs')
      exact ⟨r, n, hsource, hn⟩
    · rw [(hother s hs).1]
      exact h.immediate s ((hother s hs).2 ▸ hs')

theorem patched (h : Staged source target a) {site : Nat} (hsite : a.isBranchSite site) (t : Nat) :
    Staged source (fun s => if site = s then some t else target s) (a.patched site t) where
  code s := by
    rw [Assembler.patched, Array.getElem?_setIfInBounds]
    by_cases hs : site = s
    · subst hs
      simp [lt_of_isBranchSite hsite]
    · rw [if_neg hs, if_neg hs, h.code]
  pending s := by
    rw [Assembler.patched, List.mem_filter, h.pending]
    by_cases hs : site = s
    · simp [hs]
    · simp [hs, Ne.symm hs]
  immediate s hs' := by
    by_cases hs : site = s
    · subst hs
      exact h.immediate_of_branchSite hsite
    · exact h.immediate s (by simpa [hs] using hs')

theorem withLoops (h : Staged source target a) (loops : List LoopEntry) :
    Staged source target { a with loops } :=
  ⟨h.code, h.pending, h.immediate⟩

theorem congr (h : Staged source target a) (hsource : ∀ s, source' s = source s)
    (htarget : ∀ s, target' s = target s) : Staged source' target' a := by
  rw [funext hsource, funext htarget]
  exact h

end Staged

/-! ## Loops -/

/-- The entries on a stack of open loops that belong to the loop `depth` loops outside the
innermost. -/
def openEntries : List LoopEntry → (depth : Nat) → List LoopEntry
  | [], _ => []
  | .marker :: _, 0 => []
  | .marker :: loops, depth + 1 => openEntries loops depth
  | entry :: loops, 0 => entry :: openEntries loops 0
  | _ :: loops, depth + 1 => openEntries loops (depth + 1)

/-- The outermost loop begins with its marker. -/
def Rooted (loops : List LoopEntry) : Prop :=
  ∀ entry, loops.getLast? = some entry → entry = .marker

/-- The entries of open loops name branch operands. -/
def Registrable (a : Assembler) (loops : List LoopEntry) : Prop :=
  ∀ entry ∈ loops, ∀ site, entry.site? = some site → a.isBranchSite site

theorem Rooted.tail {entry : LoopEntry} {loops : List LoopEntry} (h : Rooted (entry :: loops)) :
    Rooted loops := by
  intro last hlast
  exact h last (by rw [List.getLast?_cons, hlast]; rfl)

theorem Rooted.cons {loops : List LoopEntry} (h : Rooted loops) (hne : loops ≠ [])
    (entry : LoopEntry) : Rooted (entry :: loops) := by
  intro last hlast
  rw [List.getLast?_cons] at hlast
  cases hloops : loops.getLast? with
  | none => exact absurd (List.getLast?_eq_none_iff.1 hloops) hne
  | some l =>
    rw [hloops] at hlast
    exact h last (hloops.trans hlast)

section Entries

variable {b c site : Nat} {entry : LoopEntry} {loops : List LoopEntry}

theorem eq_marker (h : entry.site? = none) : entry = .marker := by
  cases entry <;> first | rfl | cases h

theorem openEntries_zero (h : entry.site? = some site) :
    openEntries (entry :: loops) 0 = entry :: openEntries loops 0 := by
  cases entry <;> first | rfl | cases h

theorem openEntries_succ (h : entry.site? = some site) (depth : Nat) :
    openEntries (entry :: loops) (depth + 1) = openEntries loops (depth + 1) := by
  cases entry <;> first | rfl | cases h

theorem closeEntries_cons (h : entry.site? = some site) (hbranch : a.isBranchSite site) :
    closeEntries b c (entry :: loops) a =
      closeEntries b c loops (patched site (entry.target b c) { a with loops }) := by
  cases entry <;> cases h <;>
    rw [closeEntries, patch_of_branchSite (a := { a with loops }) hbranch, LoopEntry.target]

end Entries

/-- Closing a loop gives its entries their targets, and takes them and their marker away. -/
theorem closeEntries_staged {b c : Nat} {loops : List LoopEntry} (h : Staged source target a)
    (hrooted : Rooted loops) (hne : loops ≠ []) (hsites : Registrable a loops) :
    ∃ a', closeEntries b c loops a = .ok () a' ∧
      Staged source (fun s => (closingTarget? b c (openEntries loops 0) s).or (target s)) a' ∧
      (∀ depth, openEntries a'.loops depth = openEntries loops (depth + 1)) ∧
      Rooted a'.loops ∧ a'.code.size = a.code.size ∧ Registrable a' a'.loops := by
  induction loops generalizing a target with
  | nil => exact absurd rfl hne
  | cons entry loops ih =>
    cases hsite : entry.site? with
    | none =>
      obtain rfl := eq_marker hsite
      exact ⟨{ a with loops }, rfl, h.withLoops loops, fun _ => rfl, hrooted.tail, rfl,
        fun e he => hsites e (List.mem_cons_of_mem _ he)⟩
    | some site =>
      have hbranch := hsites entry List.mem_cons_self site hsite
      have hne' : loops ≠ [] := by
        rintro rfl
        cases hrooted entry rfl
        cases hsite
      obtain ⟨a', heq, h', hopen, hrooted', hsize, hsites'⟩ :=
        ih ((h.withLoops loops).patched hbranch (entry.target b c)) hrooted.tail hne'
          fun e he s hs =>
            (isBranchSite_patched hbranch).2 (hsites e (List.mem_cons_of_mem _ he) s hs)
      refine ⟨a', (closeEntries_cons hsite hbranch).trans heq, ?_, fun depth => ?_, hrooted', ?_,
        hsites'⟩
      · refine h'.congr (fun _ => rfl) fun s => ?_
        rw [openEntries_zero hsite, closingTarget?, Option.or_assoc, hsite]
        by_cases hs : site = s
        · simp [hs]
        · simp [hs]
      · rw [hopen, openEntries_succ hsite]
      · rw [hsize, patched, Array.size_setIfInBounds]

/-! ## Keeping to the log -/

/-- What an assembler holds is what the log says. -/
structure Keeps (log : Log) (a : Assembler) : Prop where
  staged : Staged log.source? log.target? a
  /-- The positions that were given count the slots. -/
  positions : log.filterMap Prod.snd = (List.range a.code.size).reverse
  loops : ∀ depth, openEntries a.loops depth = log.registered depth
  rooted : Rooted a.loops
  registrable : Registrable a a.loops

theorem map_eq_ok {α β : Type} {f : α → β} {x : Assembly α} {y : β}
    (h : (f <$> x) a = .ok y a') : ∃ z, x a = .ok z a' ∧ f z = y := by
  change EStateM.map f x a = _ at h
  rw [EStateM.map] at h
  cases heq : x a with
  | ok z s =>
    rw [heq] at h
    cases h
    exact ⟨z, rfl, rfl⟩
  | error e s =>
    rw [heq] at h
    cases h

theorem map_eq_error {α β : Type} {f : α → β} {x : Assembly α} {e : AssemblyError}
    (h : (f <$> x) a = .error e a') : x a = .error e a' := by
  change EStateM.map f x a = _ at h
  rw [EStateM.map] at h
  cases heq : x a with
  | ok z s =>
    rw [heq] at h
    cases h
  | error e' s =>
    rw [heq] at h
    cases h
    rfl

theorem source?_cons (position : Option Nat) (s : Nat) :
    Log.source? ((r, position) :: log) s = if position = some s then some r else log.source? s := by
  rw [Log.source?, List.find?_cons]
  by_cases hs : position = some s
  · simp [hs]
  · simp [hs, Log.source?]

/-- A request that adds no slot and gives no target. -/
theorem Keeps.unstaged (h : Keeps log a) (haim : ∀ s, Log.aim? log s (r, none) = none) :
    Staged (Log.source? ((r, none) :: log)) (Log.target? ((r, none) :: log)) a := by
  refine h.staged.congr (fun s => ?_) fun s => ?_
  · rw [source?_cons, if_neg nofun]
  · rw [Log.target?, haim, Option.none_or]

/-- One more slot. -/
theorem Keeps.push (h : Keeps log a) {t : Option Nat} {pending : List Nat}
    (hregistered : ∀ depth, Log.registered ((r, some a.code.size) :: log) depth =
      log.registered depth)
    (haim : ∀ s, Log.aim? log s (r, some a.code.size) = if s = a.code.size then t else none)
    (himmediate : t ≠ none → ∃ n, r.slot = .immediate n)
    (hpending : ∀ s, s ∈ pending ↔
      s ∈ a.pending ∨ s = a.code.size ∧ t = none ∧ r = .emitBranch none) :
    Keeps ((r, some a.code.size) :: log) { a with
      code := a.code.push ((t.map fun t => .immediate (relative a.code.size t)).getD r.slot)
      pending } where
  staged := by
    refine h.staged.push (fun s hs => ⟨?_, ?_⟩) ?_ ?_ himmediate hpending
    · rw [source?_cons, if_neg fun heq => hs (Option.some.inj heq).symm]
    · rw [Log.target?, haim, if_neg hs, Option.none_or]
    · rw [source?_cons, if_pos rfl]
    · rw [Log.target?, haim, if_pos rfl, h.staged.target_eq_none (Nat.le_refl _), Option.or_none]
  positions := by
    simp [h.positions, List.range_succ]
  loops depth := (h.loops depth).trans (hregistered depth).symm
  rooted := h.rooted
  registrable := fun entry hentry site hsite =>
    isBranchSite_push rfl (h.registrable entry hentry site hsite)

theorem emit_eq_ok {slot : Instruction} {site : Nat} (h : emit slot a = .ok site a') :
    site = a.code.size ∧ a' = { a with code := a.code.push slot } := by
  rw [emit] at h
  split at h
  · cases h
  · cases h
    exact ⟨rfl, rfl⟩

theorem Keeps.emit {slot : Instruction} {site : Nat} (h : Keeps log a)
    (heq : Assembler.emit slot a = .ok site a') : Keeps ((.emit slot, some site) :: log) a' := by
  obtain ⟨rfl, rfl⟩ := emit_eq_ok heq
  exact h.push (t := none) (fun _ => rfl) (fun _ => (ite_self _).symm) nofun (by simp)

theorem Keeps.emitBranch {target : Option Nat} {site : Nat} (h : Keeps log a)
    (heq : Assembler.emitBranch target a = .ok site a') :
    Keeps ((.emitBranch target, some site) :: log) a' := by
  cases target with
  | some t =>
    obtain ⟨rfl, rfl⟩ := emit_eq_ok heq
    exact h.push (t := some t) (fun _ => rfl) (fun s => by simp [Log.aim?, eq_comm])
      (fun _ => ⟨0, rfl⟩) (by simp)
  | none =>
    cases hemit : Assembler.emit (.immediate 0) a with
    | error e a' =>
      simp only [Assembler.emitBranch, hemit] at heq
      cases heq
    | ok site a' =>
      simp only [Assembler.emitBranch, hemit] at heq
      cases heq
      obtain ⟨rfl, rfl⟩ := emit_eq_ok hemit
      exact h.push (t := none) (fun _ => rfl) (fun s => by simp [Log.aim?]) nofun
        (by simp [or_comm])

theorem Keeps.patch {site t : Nat} (h : Keeps log a) (heq : Assembler.patch site t a = .ok () a') :
    Keeps ((.patch site t, none) :: log) a' := by
  rw [Assembler.patch] at heq
  split at heq
  case isFalse => cases heq
  case isTrue hsite =>
    cases heq
    exact
      { staged := by
          refine (h.staged.patched hsite t).congr (fun s => ?_) fun s => ?_
          · rw [source?_cons, if_neg nofun]
          · rw [Log.target?, Log.aim?]
            split <;> rfl
        positions := by simp [h.positions]
        loops := h.loops
        rooted := h.rooted
        registrable := fun entry hentry s hs =>
          (isBranchSite_patched hsite).2 (h.registrable entry hentry s hs) }

theorem pushLoopEntry_eq_ok {entry : LoopEntry} (h : pushLoopEntry entry a = .ok () a') :
    a.loops.length < a.limits.loopStackSize ∧ a' = { a with loops := entry :: a.loops } := by
  rw [pushLoopEntry] at h
  split at h
  · cases h
  · next hroom =>
    cases h
    exact ⟨Nat.lt_of_not_le hroom, rfl⟩

/-- An operand that leaves a loop is registered only if it is one and a loop is open. -/
theorem addBreak_eq_ok {site : Nat} (h : addBreak site a = .ok () a') :
    a.loops ≠ [] ∧ a.isBranchSite site ∧ pushLoopEntry (.breakSite site) a = .ok () a' := by
  rw [addBreak] at h
  split at h
  · cases h
  · next hopen =>
    split at h
    · next hsite => exact ⟨by simpa using hopen, hsite, h⟩
    · cases h

theorem addContinue_eq_ok {site : Nat} (h : addContinue site a = .ok () a') :
    a.loops ≠ [] ∧ a.isBranchSite site ∧ pushLoopEntry (.continueSite site) a = .ok () a' := by
  rw [addContinue] at h
  split at h
  · cases h
  · next hopen =>
    split at h
    · next hsite => exact ⟨by simpa using hopen, hsite, h⟩
    · cases h

theorem Keeps.openLoop (h : Keeps log a) (heq : Assembler.openLoop a = .ok () a') :
    Keeps ((.openLoop, none) :: log) a' := by
  obtain ⟨-, rfl⟩ := pushLoopEntry_eq_ok heq
  exact
    { staged := (h.unstaged fun _ => rfl).withLoops _
      positions := h.positions
      loops := fun depth => by
        cases depth with
        | zero => rfl
        | succ depth => exact h.loops depth
      rooted := by
        intro last hlast
        rw [List.getLast?_cons] at hlast
        cases hloops : a.loops.getLast? with
        | none =>
          rw [hloops] at hlast
          exact (Option.some.inj hlast).symm
        | some entry =>
          rw [hloops] at hlast
          exact h.rooted last (hloops.trans hlast)
      registrable := by
        intro entry hentry site hsite
        rcases List.mem_cons.1 hentry with rfl | hentry
        · cases hsite
        · exact h.registrable entry hentry site hsite }

/-- Registering an operand with the innermost loop. -/
theorem Keeps.register {entry : LoopEntry} {site : Nat} (h : Keeps log a) (hne : a.loops ≠ [])
    (hentry : entry.site? = some site) (hsite : a.isBranchSite site)
    (haim : ∀ s, Log.aim? log s (r, none) = none)
    (hzero : Log.registered ((r, none) :: log) 0 = entry :: log.registered 0)
    (hsucc : ∀ depth, Log.registered ((r, none) :: log) (depth + 1) = log.registered (depth + 1)) :
    Keeps ((r, none) :: log) { a with loops := entry :: a.loops } where
  staged := (h.unstaged haim).withLoops _
  positions := h.positions
  loops depth := by
    cases depth with
    | zero => rw [openEntries_zero hentry, hzero, h.loops]
    | succ depth => rw [openEntries_succ hentry, hsucc, h.loops]
  rooted := h.rooted.cons hne entry
  registrable := by
    intro e he s hs
    rcases List.mem_cons.1 he with rfl | he
    · obtain rfl := Option.some.inj (hentry.symm.trans hs)
      exact hsite
    · exact h.registrable e he s hs

theorem Keeps.addBreak {site : Nat} (h : Keeps log a)
    (heq : Assembler.addBreak site a = .ok () a') : Keeps ((.addBreak site, none) :: log) a' := by
  obtain ⟨hopen, hsite, hpush⟩ := addBreak_eq_ok heq
  obtain ⟨-, rfl⟩ := pushLoopEntry_eq_ok hpush
  exact h.register hopen rfl hsite (fun _ => rfl) rfl fun _ => rfl

theorem Keeps.addContinue {site : Nat} (h : Keeps log a)
    (heq : Assembler.addContinue site a = .ok () a') :
    Keeps ((.addContinue site, none) :: log) a' := by
  obtain ⟨hopen, hsite, hpush⟩ := addContinue_eq_ok heq
  obtain ⟨-, rfl⟩ := pushLoopEntry_eq_ok hpush
  exact h.register hopen rfl hsite (fun _ => rfl) rfl fun _ => rfl

theorem Keeps.closeLoop {b c : Nat} (h : Keeps log a)
    (heq : Assembler.closeLoop b c a = .ok () a') : Keeps ((.closeLoop b c, none) :: log) a' := by
  have hne : a.loops ≠ [] := by
    intro hnil
    rw [Assembler.closeLoop, hnil] at heq
    cases heq
  obtain ⟨a'', hclose, hstaged, hopen, hrooted, hsize, hregistrable⟩ :=
    closeEntries_staged h.staged h.rooted hne h.registrable
  cases hclose.symm.trans heq
  exact
    { staged := by
        refine hstaged.congr (fun s => ?_) fun s => ?_
        · rw [source?_cons, if_neg nofun]
        · rw [h.loops]
          rfl
      positions := by
        rw [hsize]
        exact h.positions
      loops := fun depth => (hopen depth).trans (h.loops (depth + 1))
      rooted := hrooted
      registrable := hregistrable }

/-- A granted request. -/
theorem Keeps.granted {site : Option Nat} (h : Keeps log a) (heq : r.perform a = .ok site a') :
    Keeps ((r, site) :: log) a' := by
  cases r <;> obtain ⟨answer, hdone, rfl⟩ := map_eq_ok heq
  case emit => exact h.emit hdone
  case emitBranch => exact h.emitBranch hdone
  case patch => exact h.patch hdone
  case openLoop => exact h.openLoop hdone
  case addBreak => exact h.addBreak hdone
  case addContinue => exact h.addContinue hdone
  case closeLoop => exact h.closeLoop hdone

section Refused

variable {e : AssemblyError}

theorem emit_eq_error {slot : Instruction} (h : emit slot a = .error e a') : a' = a := by
  rw [emit] at h
  split at h
  · cases h
    rfl
  · cases h

theorem emitBranch_eq_error {target : Option Nat} (h : emitBranch target a = .error e a') :
    a' = a := by
  cases target with
  | some t => exact emit_eq_error h
  | none =>
    cases hemit : emit (.immediate 0) a with
    | ok site a' =>
      simp only [emitBranch, hemit] at h
      cases h
    | error e a' =>
      simp only [emitBranch, hemit] at h
      cases h
      exact emit_eq_error hemit

theorem patch_eq_error {site t : Nat} (h : patch site t a = .error e a') : a' = a := by
  rw [patch] at h
  split at h
  · cases h
  · cases h
    rfl

theorem pushLoopEntry_eq_error {entry : LoopEntry} (h : pushLoopEntry entry a = .error e a') :
    a' = a := by
  rw [pushLoopEntry] at h
  split at h
  · cases h
    rfl
  · cases h

theorem addBreak_eq_error {site : Nat} (h : addBreak site a = .error e a') : a' = a := by
  rw [addBreak] at h
  split at h
  · cases h
    rfl
  · split at h
    · exact pushLoopEntry_eq_error h
    · cases h
      rfl

theorem addContinue_eq_error {site : Nat} (h : addContinue site a = .error e a') : a' = a := by
  rw [addContinue] at h
  split at h
  · cases h
    rfl
  · split at h
    · exact pushLoopEntry_eq_error h
    · cases h
      rfl

/-- Only the closing of a loop could break off in the middle: at an entry that names no branch
operand, or at the bottom of a stack without a marker. -/
theorem Keeps.closeLoop_eq_error {b c : Nat} (h : Keeps log a)
    (heq : Assembler.closeLoop b c a = .error e a') : a' = a := by
  cases hloops : a.loops with
  | nil =>
    rw [Assembler.closeLoop, hloops, closeEntries] at heq
    cases heq
    rw [← hloops]
  | cons entry loops =>
    obtain ⟨a'', hclose, -⟩ := closeEntries_staged (b := b) (c := c) h.staged h.rooted
      (hloops ▸ List.cons_ne_nil entry loops) h.registrable
    cases hclose.symm.trans heq

/-- A refused request. -/
theorem Keeps.refused (h : Keeps log a) (heq : r.perform a = .error e a') : a' = a := by
  cases r <;> have heq := map_eq_error heq
  case emit => exact emit_eq_error heq
  case emitBranch => exact emitBranch_eq_error heq
  case patch => exact patch_eq_error heq
  case openLoop => exact pushLoopEntry_eq_error heq
  case addBreak => exact addBreak_eq_error heq
  case addContinue => exact addContinue_eq_error heq
  case closeLoop => exact h.closeLoop_eq_error heq

end Refused

theorem Keeps.ask {x : Construction} (h : Keeps x.log x.assembler) (r : Request) :
    Keeps (x.ask r).log (x.ask r).assembler := by
  rw [Construction.ask]
  cases heq : r.perform x.assembler with
  | ok site a => exact h.granted heq
  | error e a =>
    obtain rfl := h.refused heq
    exact h

theorem keeps_begin (a : Assembler) (t : SymbolTable) : Keeps [] (a.begin t).1 where
  staged := ⟨fun _ => rfl, fun _ => ⟨nofun, nofun⟩, nofun⟩
  positions := rfl
  loops _ := rfl
  rooted := nofun
  registrable := nofun

theorem keeps_construct (a : Assembler) (t : SymbolTable) (requests : List Request) :
    Keeps (construct a t requests).log (construct a t requests).assembler := by
  have hrun : ∀ x : Construction, Keeps x.log x.assembler →
      Keeps (requests.foldl Construction.ask x).log
        (requests.foldl Construction.ask x).assembler := by
    induction requests with
    | nil => exact fun _ h => h
    | cons r requests ih => exact fun x h => ih (x.ask r) (h.ask r)
  exact hrun _ (keeps_begin a t)

/-! ## The finished program -/

theorem size_resolved (size : Nat) (sites : List Nat) (code : Array Instruction) :
    (sites.foldl (fun code site => code.setIfInBounds site (.immediate (relative site size)))
      code).size = code.size := by
  induction sites generalizing code with
  | nil => rfl
  | cons site sites ih => rw [List.foldl_cons, ih, Array.size_setIfInBounds]

theorem getElem?_resolved (size : Nat) (sites : List Nat) (code : Array Instruction) (s : Nat) :
    (sites.foldl (fun code site => code.setIfInBounds site (.immediate (relative site size)))
      code)[s]? =
        if s ∈ sites ∧ s < code.size then some (.immediate (relative s size)) else code[s]? := by
  induction sites generalizing code with
  | nil => simp
  | cons site sites ih =>
    rw [List.foldl_cons, ih, Array.size_setIfInBounds, Array.getElem?_setIfInBounds]
    by_cases hs : site = s
    · subst hs
      by_cases hlt : site < code.size
      · simp [hlt]
      · simp [hlt]
    · simp [hs, Ne.symm hs]

theorem Keeps.source?_of_mem (h : Keeps log a) {s : Nat} (hmem : (r, some s) ∈ log) :
    log.source? s = some r := by
  have hnodup : (log.filterMap Prod.snd).Nodup := by
    rw [h.positions]
    exact List.pairwise_reverse.2 (List.nodup_range.imp Ne.symm)
  clear h
  induction log with
  | nil => cases hmem
  | cons granted log ih =>
    obtain ⟨r', position⟩ := granted
    rw [source?_cons]
    rcases List.mem_cons.1 hmem with heq | hold
    · cases heq
      rw [if_pos rfl]
    · cases position with
      | none =>
        rw [if_neg nofun]
        exact ih hold hnodup
      | some s' =>
        have hcons : (s' :: log.filterMap Prod.snd).Nodup := hnodup
        have hne : s' ≠ s := by
          rintro rfl
          exact (List.nodup_cons.1 hcons).1 (List.mem_filterMap.2 ⟨(r, some s'), hold, rfl⟩)
        rw [if_neg fun heq => hne (Option.some.inj heq)]
        exact ih hold (List.nodup_cons.1 hcons).2

/-- A branch operand that was added with a target has one. -/
theorem Log.target?_ne_none {s t : Nat} (h : (.emitBranch (some t), some s) ∈ log) :
    log.target? s ≠ none := by
  induction log with
  | nil => cases h
  | cons granted log ih =>
    rw [Log.target?]
    intro hnone
    obtain ⟨haim, htarget⟩ := Option.or_eq_none_iff.1 hnone
    rcases List.mem_cons.1 h with rfl | h
    · simp [Log.aim?] at haim
    · exact ih h htarget

theorem size_finish (a : Assembler) (t : SymbolTable) :
    (a.finish t).1.code.size = a.code.size :=
  size_resolved a.code.size a.pending a.code

/-- A slot that was given a target. -/
theorem Keeps.targeted (h : Keeps log a) (t : SymbolTable) {s target : Nat}
    (htarget : log.target? s = some target) :
    (a.finish t).1.code[s]? = some (.immediate (relative s target)) := by
  have hpending : s ∉ a.pending := fun hmem => by
    rw [h.staged.pending, htarget] at hmem
    cases hmem.1
  have hcode := getElem?_resolved a.code.size a.pending a.code s
  rw [if_neg fun h => hpending h.1, h.staged.code, htarget] at hcode
  exact hcode

/-- A branch operand that was never given a target. -/
theorem Keeps.openEnded (h : Keeps log a) (t : SymbolTable) {s : Nat}
    (hmem : (.emitBranch none, some s) ∈ log) (htarget : log.target? s = none) :
    (a.finish t).1.code[s]? = some (.immediate (relative s a.code.size)) := by
  have hsource := h.source?_of_mem hmem
  have hpending : s ∈ a.pending := (h.staged.pending s).2 ⟨htarget, hsource⟩
  have hlt : s < a.code.size := by
    refine Nat.lt_of_not_le fun hle => ?_
    rw [h.staged.source_eq_none hle] at hsource
    cases hsource
  have hcode := getElem?_resolved a.code.size a.pending a.code s
  rw [if_pos ⟨hpending, hlt⟩] at hcode
  exact hcode

/-- A plain slot that was never given a target. -/
theorem Keeps.untouched (h : Keeps log a) (t : SymbolTable) {s : Nat} {slot : Instruction}
    (hmem : (.emit slot, some s) ∈ log) (htarget : log.target? s = none) :
    (a.finish t).1.code[s]? = some slot := by
  have hsource := h.source?_of_mem hmem
  have hpending : s ∉ a.pending := fun hmem => by
    rw [h.staged.pending, hsource] at hmem
    cases hmem.2
  have hcode := getElem?_resolved a.code.size a.pending a.code s
  rw [if_neg fun h => hpending h.1, h.staged.code, htarget, hsource] at hcode
  exact hcode

end Assembler

/-! ## Reading branches -/

theorem toInt_relative {site target : Nat} (hsite : site < 4611686018427387904)
    (htarget : target < 4611686018427387904) :
    (Assembler.relative site target).toInt = (target : Int) - site := by
  refine Int64.toInt_ofInt_of_le ?_ ?_
  · show (-9223372036854775808 : Int) ≤ _
    omega
  · show _ < (9223372036854775808 : Int)
    omega

/-- The slot is a branch operand with a target: it holds the distance to the target, and a context
that comes to it finds the target, or refuses it if it lies outside the code. -/
structure Program.BranchesTo (p : Program) (site target : Nat) : Prop where
  distance : ∃ offset, p.code[site]? = some (.immediate offset) ∧
    offset.toInt = (target : Int) - site
  fetched : ∀ c : Context, c.pc.program.program = p → c.pc.index = site →
    Context.fetchBranch c =
      if target ≤ p.size then .ok target { c with pc := c.pc.advance 1 }
      else .error (.malformed (.branchOutOfRange site)) { c with pc := c.pc.advance 1 }

theorem Program.branchesTo_of_distance {p : Program} {site target : Nat} {offset : Int64}
    (hslot : p.code[site]? = some (.immediate offset))
    (hoffset : offset.toInt = (target : Int) - site) : p.BranchesTo site target where
  distance := ⟨offset, hslot, hoffset⟩
  fetched c hprogram hindex := by
    have hfetch : c.pc.slot? = some (.immediate offset) := by
      rw [CodeAddress.slot?, hprogram, hindex, hslot]
    have htarget : (site : Int) + offset.toInt = target := by omega
    simp only [Context.fetchBranch, Context.fetchImmediate, hfetch, hindex, htarget,
      CodeAddress.advance, hprogram, Int.natCast_nonneg, true_and, Int.toNat_natCast,
      Int.ofNat_le]

/-- Branches lead where they were sent.  Whatever an assembler held before and whatever it is asked
in whatever order, the slots of the finished program are those whose positions it gave.  A branch
operand leads to the target that it was given last, and to the end of the program if it was given
none.  A plain slot is as it was added, unless it is an immediate that was given a target, and then
it leads there.  (The distances are exact for targets and programs below 2 ^ 62.) -/
theorem Assembler.finish_branches (a : Assembler) (t t' : SymbolTable) (requests : List Request) :
    let log := (construct a t requests).log
    let p := ((construct a t requests).assembler.finish t').1
    p.size < 4611686018427387904 →
    log.filterMap Prod.snd = (List.range p.size).reverse ∧
    (∀ target? s target, (.emitBranch target?, some s) ∈ log →
      (log.target? s).getD p.size = target → target < 4611686018427387904 →
      p.BranchesTo s target) ∧
    ∀ slot s, (.emit slot, some s) ∈ log →
      (log.target? s = none → p.code[s]? = some slot) ∧
      ∀ target, log.target? s = some target →
        (∃ n, slot = .immediate n) ∧ (target < 4611686018427387904 → p.BranchesTo s target) := by
  intro log p hsize
  have h : Keeps log (construct a t requests).assembler := keeps_construct a t requests
  have hp : p.size = (construct a t requests).assembler.code.size := size_finish _ t'
  have hbranches : ∀ {s target : Nat}, p.code[s]? = some (.immediate (relative s target)) →
      target < 4611686018427387904 → p.BranchesTo s target := by
    intro s target hslot htarget
    have hlt : s < p.size := (Array.getElem?_eq_some_iff.1 hslot).1
    exact p.branchesTo_of_distance hslot (toInt_relative (Nat.lt_trans hlt hsize) htarget)
  refine ⟨hp ▸ h.positions, ?_, ?_⟩
  · intro target? s target hmem hgiven htarget
    cases hlast : log.target? s with
    | some last =>
      rw [hlast] at hgiven
      cases hgiven
      exact hbranches (h.targeted t' hlast) htarget
    | none =>
      rw [hlast] at hgiven
      cases hgiven
      cases target? with
      | some first => exact absurd hlast (Log.target?_ne_none hmem)
      | none => exact hbranches (hp ▸ h.openEnded t' hmem hlast) htarget
  · intro slot s hmem
    refine ⟨h.untouched t' hmem, fun target hlast => ⟨?_, hbranches (h.targeted t' hlast)⟩⟩
    obtain ⟨r, n, hsource, hslot⟩ := h.staged.immediate s (by simp [hlast])
    cases (h.source?_of_mem hmem).symm.trans hsource
    exact ⟨n, hslot⟩

namespace Sample

open Assembler

/-- Two loops, one inside the other.  The operand at 1 is registered with both and patched in
between; that at 2 stays open until the outer loop is closed, that at 5 for ever; the immediate at
4 is given a target too.  Three of the requests are refused. -/
def loopRequests : List Request :=
  [.addBreak 0, .openLoop, .emit (.op .branch), .emitBranch none, .emitBranch none, .addBreak 1,
    .openLoop, .addContinue 1, .addContinue 0, .emit (.op .branch), .emit (.immediate 9),
    .closeLoop 3 0, .patch 1 2, .addContinue 2, .addBreak 4, .emitBranch none, .closeLoop 6 3,
    .emitBranch (some 0), .closeLoop 0 0]

/-- The program that they build. -/
def loopProgram : Program :=
  ((construct (.new {}) default loopRequests).assembler.finish default).1

end Sample

/-- What was asked last decides: the operand at 1 and the immediate at 4 lead to the end of the
outer loop, that at 2 to where this loop goes on, and the operand that stays open to the end of the
program. -/
theorem Assembler.finish_branches_of_loops :
    Sample.loopProgram.BranchesTo 1 6 ∧ Sample.loopProgram.BranchesTo 2 3 ∧
      Sample.loopProgram.BranchesTo 4 6 ∧ Sample.loopProgram.BranchesTo 5 7 := by
  have hsize : Sample.loopProgram.size = 7 := by decide +kernel
  obtain ⟨-, hbranch, hplain⟩ :=
    Assembler.finish_branches (.new {}) default default Sample.loopRequests
      (Nat.lt_of_le_of_lt (Nat.le_of_eq hsize) (by decide))
  refine ⟨hbranch none 1 6 ?_ ?_ ?_, hbranch none 2 3 ?_ ?_ ?_,
    ((hplain (.immediate 9) 4 ?_).2 6 ?_).2 ?_, hbranch none 5 7 ?_ ?_ ?_⟩
  all_goals decide +kernel

end MacroMachine
