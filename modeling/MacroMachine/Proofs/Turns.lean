import MacroMachine.Proofs.Budget
import MacroMachine.Proofs.Fuel

/-!
# Turns

A host runs a macro turn by turn: it executes it once and then continues it as often as it was
suspended.  Between two turns the host may do what it likes; here it does nothing, and the macro has
the world to itself (`Host.Alone`).

The turns of a macro are determined: fuel decides only whether a turn has an answer.  A drive takes
one turn after another until the macro is over (`Host.Alone.of_drive`, `Host.Alone.drive`).
-/

namespace MacroMachine

/-- A macro that a host is asked to run. -/
structure Macro where
  program : ProgramRef
  arguments : List Value
  target : Option DocumentHandle
deriving DecidableEq, Repr

namespace Host

variable {host : Host} {m : Macro} {w u v u' : World} {k n : Nat} {p q : Option Status}
  {status : Status}

/-- Runs the next slice of a macro.  Its progress is the status of its last slice, none before the
first; a macro that is over has no turn any more. -/
def turn (host : Host) (fuel : Nat) (m : Macro) : Option Status → World → Option (Status × World)
  | none, world => host.execute fuel world m.program m.arguments m.target
  | some (.preempted context _), world => host.resume fuel world context
  | some _, _ => none

/-- A macro that has the world to itself has come so far after so many turns. -/
inductive Alone (host : Host) (m : Macro) (w : World) : Nat → Option Status → World → Prop where
  | start : Alone host m w 0 none w
  | turn {k fuel : Nat} {p : Option Status} {u u' : World} {status : Status}
      (h : Alone host m w k p u) (hturn : host.turn fuel m p u = some (status, u')) :
    Alone host m w (k + 1) (some status) u'

/-! ## Turns are determined -/

theorem turn_mono {fuel more : Nat} (h : fuel ≤ more) {answer : Status × World}
    (hturn : host.turn fuel m p u = some answer) : host.turn more m p u = some answer := by
  cases p with
  | none => exact host.execute_mono h hturn
  | some status =>
    cases status with
    | preempted context reason => exact host.resume_mono h hturn
    | _ => cases hturn

theorem turn_unique {fuel fuel' : Nat} {answer answer' : Status × World}
    (h : host.turn fuel m p u = some answer) (h' : host.turn fuel' m p u = some answer') :
    answer = answer' := by
  have hmax := turn_mono (Nat.le_max_left fuel fuel') h
  rw [turn_mono (Nat.le_max_right fuel fuel') h'] at hmax
  cases hmax
  rfl

/-- A macro that is over has no turn. -/
theorem turn_of_final (h : status.Final) (fuel : Nat) : host.turn fuel m (some status) u = none := by
  cases status with
  | preempted => exact h.elim
  | _ => rfl

namespace Alone

theorem unique (h : host.Alone m w k p u) (h' : host.Alone m w k q v) : p = q ∧ u = v := by
  induction h generalizing q v with
  | start =>
    cases h'
    exact ⟨rfl, rfl⟩
  | turn _ hturn ih =>
    cases h' with
    | turn h' hturn' =>
      obtain ⟨rfl, rfl⟩ := ih h'
      cases turn_unique hturn hturn'
      exact ⟨rfl, rfl⟩

/-- What has taken a number of turns has taken every smaller number of them. -/
theorem before (h : host.Alone m w n q v) (hk : k < n) :
    ∃ p u fuel answer, host.Alone m w k p u ∧ host.turn fuel m p u = some answer := by
  induction h with
  | start => exact absurd hk (Nat.not_lt_zero k)
  | @turn n fuel p u v status h hturn ih =>
    rcases Nat.lt_succ_iff_lt_or_eq.1 hk with hk | rfl
    · exact ih hk
    · exact ⟨p, u, fuel, _, h, hturn⟩

/-- A macro that is over takes no more turns. -/
theorem le_of_final (h : host.Alone m w n (some status) v) (hfinal : status.Final)
    (h' : host.Alone m w k p u) : k ≤ n := by
  refine Nat.not_lt.1 fun hn => ?_
  obtain ⟨q, u, fuel, answer, hq, hturn⟩ := h'.before hn
  obtain ⟨rfl, rfl⟩ := h.unique hq
  rw [turn_of_final hfinal fuel] at hturn
  cases hturn

/-! ## Drives -/

theorem of_resumeWhile {fuel more : Nat} {status' : Status} (h : host.Alone m w k (some status) u)
    (hresume : host.resumeWhile fuel more status u = some (status', n, u')) :
    host.Alone m w (k + n) (some status') u' := by
  induction more generalizing k n status u with
  | zero =>
    cases hresume
    exact h
  | succ more ih =>
    cases status with
    | preempted context reason =>
      rw [resumeWhile] at hresume
      cases hslice : host.resume fuel u context with
      | none =>
        simp only [hslice] at hresume
        cases hresume
      | some answer =>
        obtain ⟨next, v⟩ := answer
        simp only [hslice, Option.map_eq_some_iff] at hresume
        obtain ⟨⟨last, rest, v'⟩, hrest, heq⟩ := hresume
        cases heq
        have hturn : host.turn fuel m (some (.preempted context reason)) u = some (next, v) := hslice
        rw [Nat.add_comm rest, ← Nat.add_assoc]
        exact ih (h.turn hturn) hrest
    | done value =>
      cases hresume
      exact h
    | failed fault =>
      cases hresume
      exact h

/-- A drive gives every macro the world to itself. -/
theorem of_drive {fuel more : Nat}
    (h : host.drive fuel more w m.program m.arguments m.target = some (status, n, u)) :
    host.Alone m w n (some status) u := by
  rw [Host.drive] at h
  cases hfirst : host.execute fuel w m.program m.arguments m.target with
  | none =>
    simp only [hfirst] at h
    cases h
  | some answer =>
    obtain ⟨first, v⟩ := answer
    simp only [hfirst, Option.map_eq_some_iff] at h
    obtain ⟨⟨last, rest, v'⟩, hrest, heq⟩ := h
    cases heq
    have hturn : host.turn fuel m none w = some (first, v) := hfirst
    rw [Nat.add_comm]
    exact (Alone.start.turn hturn).of_resumeWhile hrest

/-- The turns of a macro are the slices of a drive, given fuel for the longest of them. -/
theorem drive_of_resumeWhile (h : host.Alone m w k (some status) u) :
    ∃ enough before, ∀ fuel more n status' u', enough ≤ fuel →
      host.resumeWhile fuel more status u = some (status', n, u') →
      host.drive fuel (before + more) w m.program m.arguments m.target =
        some (status', k + n, u') := by
  generalize hp : some status = p at h
  induction h generalizing status with
  | start => cases hp
  | @turn k enough p u v next h hturn ih =>
    cases hp
    cases p with
    | none =>
      -- the first slice is the one that the drive executes
      cases h
      refine ⟨enough, 0, fun fuel more n status' u' hfuel hresume => ?_⟩
      rw [Host.drive, host.execute_mono hfuel hturn, Nat.zero_add]
      simp only [hresume, Option.map_some, Nat.add_comm]
    | some last =>
      cases last with
      | preempted context reason =>
        obtain ⟨enough', before, hdrive⟩ := ih rfl
        refine ⟨max enough enough', before + 1, fun fuel more n status' u' hfuel hresume => ?_⟩
        have hslice : host.resume fuel u context = some (next, v) :=
          host.resume_mono (Nat.le_trans (Nat.le_max_left _ _) hfuel) hturn
        have hmore : host.resumeWhile fuel (more + 1) (.preempted context reason) u =
            some (status', n + 1, u') := by
          simp only [resumeWhile, hslice, hresume, Option.map_some]
        have h := hdrive fuel (more + 1) (n + 1) status' u'
          (Nat.le_trans (Nat.le_max_right _ _) hfuel) hmore
        rwa [Nat.add_assoc, Nat.add_comm 1 more, Nat.add_assoc, Nat.add_comm 1 n]
      | done value => cases hturn
      | failed fault => cases hturn

/-- A macro that is over has been driven to its end. -/
theorem drive (h : host.Alone m w k (some status) u) (hfinal : status.Final) :
    ∃ fuel more, host.drive fuel more w m.program m.arguments m.target = some (status, k, u) := by
  obtain ⟨enough, before, hdrive⟩ := h.drive_of_resumeWhile
  exact ⟨enough, before + 0, hdrive enough 0 0 status u (Nat.le_refl _)
    (host.resumeWhile_of_final hfinal enough 0 u)⟩

end Alone

end Host

end MacroMachine
