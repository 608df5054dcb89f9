import Mathlib.Data.List.Chain
import Mathlib.Data.List.Forall2
import Mathlib.Data.List.Perm.Subperm
import Mathlib.Data.List.Range
import Mathlib.Logic.Relation
import MacroMachine.Value.Equality

/-!
# Equality of values is an equivalence

Equality compares arrays entry by entry and goes down into the arrays that they hold.  On a store
in which no container reaches itself the descent ends, and equality is an equivalence on the values
of all kinds.

*Entry by entry.*  Two names of one container are equal at once.  `entrywiseTo?` is the comparison
without this shortcut.  It never finds a value different from itself, so the shortcut agrees with
every answer that it gives (`equalTo?_of_entrywiseTo?`).  Hence the laws of equality are shown for
`entrywiseTo?`, where arrays are one case.

*Depth.*  A comparison without an answer has gone down a path of containers, each of which holds the
next (`exists_path`).  If no container reaches itself, a path meets no container twice, so it is no
longer than there are containers.
-/

namespace MacroMachine

/-- What tells a value from others that are no arrays: programs and addresses count by the identity
of the program, whatever code it has. -/
def Value.essence : Value → Value
  | .program p => .program ⟨p.id, default⟩
  | .address a => .address (a.map fun a => ⟨⟨a.program.id, default⟩, a.index⟩)
  | v => v

namespace Store

variable {s : Store} {u v w : Value}

/-! ## Comparing rows -/

section Rows

variable {same same' : Value → Value → Option Bool} {left right : List (String × Value)}

theorem rowsEqual?_cons (j k : String) (u v : Value) :
    rowsEqual? same ((j, u) :: left) ((k, v) :: right) =
      if j = k then (same u v).bind fun b => if b then rowsEqual? same left right else some false
      else some false := by
  rw [rowsEqual?]
  cases same u v with
  | none => rfl
  | some b => cases b <;> rfl

/-- Rows are equal if they have the same keys and equal values under them. -/
theorem rowsEqual?_eq_true_iff : rowsEqual? same left right = some true ↔
    List.Forall₂ (fun a b => a.1 = b.1 ∧ same a.2 b.2 = some true) left right := by
  induction left generalizing right with
  | nil => cases right <;> simp [rowsEqual?]
  | cons a left ih =>
    cases right with
    | nil => simp [rowsEqual?]
    | cons b right =>
      obtain ⟨j, u⟩ := a
      obtain ⟨k, v⟩ := b
      rw [rowsEqual?_cons, List.forall₂_cons, ← ih]
      by_cases hkey : j = k
      · cases same u v with
        | none => simp
        | some answer => cases answer <;> simp [hkey]
      · simp [hkey]

/-- A comparison of values with more answers gives more answers for rows. -/
theorem rowsEqual?_mono (h : ∀ u v b, same u v = some b → same' u v = some b) {b : Bool}
    (hrows : rowsEqual? same left right = some b) : rowsEqual? same' left right = some b := by
  induction left generalizing right with
  | nil => cases right <;> exact hrows
  | cons a left ih =>
    cases right with
    | nil => exact hrows
    | cons b right =>
      obtain ⟨j, u⟩ := a
      obtain ⟨k, v⟩ := b
      rw [rowsEqual?_cons] at hrows ⊢
      by_cases hkey : j = k
      · rw [if_pos hkey] at hrows ⊢
        obtain ⟨answer, hanswer, hrest⟩ := Option.bind_eq_some_iff.1 hrows
        rw [h u v answer hanswer, Option.bind_some]
        cases answer with
        | false => exact hrest
        | true => exact ih hrest
      · rw [if_neg hkey] at hrows ⊢
        exact hrows

/-- A row is not found different from itself if its values are not. -/
theorem rowsEqual?_self_ne_false (h : ∀ u, same u u ≠ some false) (rows : List (String × Value)) :
    rowsEqual? same rows rows ≠ some false := by
  induction rows with
  | nil => simp [rowsEqual?]
  | cons a rows ih =>
    obtain ⟨k, u⟩ := a
    rw [rowsEqual?_cons, if_pos rfl]
    have hu := h u
    cases hsame : same u u with
    | none => simp
    | some answer =>
      cases answer with
      | false => exact absurd hsame hu
      | true => exact ih

/-- There is no answer for rows only if there is none for two of their values. -/
theorem exists_of_rowsEqual?_eq_none (h : rowsEqual? same left right = none) :
    ∃ a ∈ left, ∃ b ∈ right, same a.2 b.2 = none := by
  induction left generalizing right with
  | nil => cases right <;> cases h
  | cons a left ih =>
    cases right with
    | nil => cases h
    | cons b right =>
      obtain ⟨j, u⟩ := a
      obtain ⟨k, v⟩ := b
      rw [rowsEqual?_cons] at h
      by_cases hkey : j = k
      · rw [if_pos hkey] at h
        cases hsame : same u v with
        | none => exact ⟨_, List.mem_cons_self, _, List.mem_cons_self, hsame⟩
        | some answer =>
          rw [hsame, Option.bind_some] at h
          cases answer with
          | false => cases h
          | true =>
            obtain ⟨a, ha, b, hb, hnone⟩ := ih h
            exact ⟨a, List.mem_cons_of_mem _ ha, b, List.mem_cons_of_mem _ hb, hnone⟩
      · rw [if_neg hkey] at h
        cases h

end Rows

/-! ## Comparing entry by entry -/

/-- Whether two values are equal, given the answers for arrays. -/
def equalGiven? (arrays : ArrayRef → ArrayRef → Option Bool) : Value → Value → Option Bool
  | .array a, .array b => arrays a b
  | v, w => some (v.essence == w.essence)

/-- Compares what two containers hold; containers of different sizes differ. -/
def entriesEqual? (s : Store) (same : Value → Value → Option Bool) (a b : ArrayRef) : Option Bool :=
  if (s.entries a).size = (s.entries b).size then
    rowsEqual? same (s.entries a).toList (s.entries b).toList
  else
    some false

/-- Whether two values are equal, arrays compared entry by entry through at most `depth` levels,
also if they are one container. -/
def entrywiseTo? (s : Store) : (depth : Nat) → Value → Value → Option Bool
  | 0 => equalGiven? fun _ _ => none
  | depth + 1 => equalGiven? (s.entriesEqual? (s.entrywiseTo? depth))

/-- What equality makes of two arrays: one container is equal to itself without a look at its
entries. -/
def arraysEqualTo? (s : Store) : (depth : Nat) → ArrayRef → ArrayRef → Option Bool
  | 0, a, b => if a = b then some true else none
  | depth + 1, a, b => if a = b then some true else s.entriesEqual? (s.equalTo? depth) a b

theorem same_eq_essence (a b : CodeAddress) :
    a.same b = ((Value.address (some a)).essence == (Value.address (some b)).essence) := by
  rw [Bool.eq_iff_iff]
  simp [CodeAddress.same, ProgramRef.same, Value.essence]

theorem equalTo?_eq (s : Store) (depth : Nat) (v w : Value) :
    s.equalTo? depth v w = equalGiven? (s.arraysEqualTo? depth) v w := by
  -- The equations of `equalTo?` hold by evaluation once the level is known to be the last or not.
  cases v with
  | array a => cases w <;> cases depth <;> rfl
  | address a =>
    cases w with
    | address b =>
      cases a <;> cases b
      case some.some a b => cases depth <;> exact congrArg some (same_eq_essence a b)
      all_goals cases depth <;> rfl
    | _ => cases a <;> cases depth <;> rfl
  | _ =>
    cases w <;> cases depth <;> first
      | rfl
      | exact congrArg some (by simp [Value.essence, ProgramRef.same])

/-! ## One level -/

section Level

variable {arrays arrays' : ArrayRef → ArrayRef → Option Bool} {b : Bool}

theorem isArray_essence (v : Value) : v.essence.isArray = v.isArray := by
  cases v <;> rfl

theorem arrays_or_flat (v w : Value) : (∃ a b, v = .array a ∧ w = .array b) ∨
    (v.isArray && w.isArray) = false ∧
      ∀ arrays, equalGiven? arrays v w = some (v.essence == w.essence) := by
  cases v with
  | array a =>
    cases w with
    | array b => exact .inl ⟨a, b, rfl, rfl⟩
    | _ => exact .inr ⟨rfl, fun _ => rfl⟩
  | _ => exact .inr ⟨rfl, fun _ => rfl⟩

/-- Two values are found equal if they are arrays found equal, or no arrays and the same but for the
code of programs. -/
theorem equalGiven?_eq_true_iff : equalGiven? arrays v w = some true ↔
    (∃ a b, v = .array a ∧ w = .array b ∧ arrays a b = some true) ∨
      v.isArray = false ∧ w.isArray = false ∧ v.essence = w.essence := by
  rcases arrays_or_flat v w with ⟨a, b, rfl, rfl⟩ | ⟨hflat, hessence⟩
  · simp [equalGiven?, Value.isArray, Value.kind]
  · rw [hessence, Option.some.injEq, beq_iff_eq]
    constructor
    · intro heq
      have hsame : v.isArray = w.isArray := by
        rw [← isArray_essence v, heq, isArray_essence]
      rw [hsame, Bool.and_self] at hflat
      exact .inr ⟨hsame.trans hflat, hflat, heq⟩
    · rintro (⟨a, b, rfl, rfl, -⟩ | ⟨-, -, heq⟩)
      · cases hflat
      · exact heq

theorem equalGiven?_mono (h : ∀ a b c, arrays a b = some c → arrays' a b = some c)
    (hvalues : equalGiven? arrays v w = some b) : equalGiven? arrays' v w = some b := by
  rcases arrays_or_flat v w with ⟨a, b, rfl, rfl⟩ | ⟨-, hflat⟩
  · exact h a b _ hvalues
  · rw [hflat] at hvalues ⊢
    exact hvalues

theorem equalGiven?_symm (h : ∀ a b, arrays a b = some true → arrays b a = some true)
    (hvalues : equalGiven? arrays v w = some true) : equalGiven? arrays w v = some true := by
  rw [equalGiven?_eq_true_iff] at hvalues ⊢
  rcases hvalues with ⟨a, b, hv, hw, hab⟩ | ⟨hv, hw, heq⟩
  · exact .inl ⟨b, a, hw, hv, h a b hab⟩
  · exact .inr ⟨hw, hv, heq.symm⟩

theorem equalGiven?_trans
    (h : ∀ a b c, arrays a b = some true → arrays b c = some true → arrays a c = some true)
    (huv : equalGiven? arrays u v = some true) (hvw : equalGiven? arrays v w = some true) :
    equalGiven? arrays u w = some true := by
  rw [equalGiven?_eq_true_iff] at huv hvw ⊢
  rcases huv with ⟨a, b, rfl, rfl, hab⟩ | ⟨hu, hv, heq⟩
  · rcases hvw with ⟨b', c, hb, rfl, hbc⟩ | ⟨hv, -, -⟩
    · cases hb
      exact .inl ⟨a, c, rfl, rfl, h a b c hab hbc⟩
    · cases hv
  · rcases hvw with ⟨b, c, rfl, -, -⟩ | ⟨-, hw, heq'⟩
    · cases hv
    · exact .inr ⟨hu, hw, heq.trans heq'⟩

theorem equalGiven?_self_ne_false (h : ∀ a, arrays a a ≠ some false) (v : Value) :
    equalGiven? arrays v v ≠ some false := by
  rcases arrays_or_flat v v with ⟨a, b, rfl, hb⟩ | ⟨-, hflat⟩
  · exact h a
  · simp [hflat]

end Level

section Containers

variable {same same' : Value → Value → Option Bool} {a b c : ArrayRef}

theorem entriesEqual?_eq_true_iff : s.entriesEqual? same a b = some true ↔
    List.Forall₂ (fun j k => j.1 = k.1 ∧ same j.2 k.2 = some true)
      (s.entries a).toList (s.entries b).toList := by
  rw [entriesEqual?, ← rowsEqual?_eq_true_iff]
  split
  · exact Iff.rfl
  · next hsize =>
    refine ⟨fun h => (by cases h), fun h => ?_⟩
    exact absurd (rowsEqual?_eq_true_iff.1 h).length_eq hsize

theorem entriesEqual?_trans
    (h : ∀ u v w, same u v = some true → same v w = some true → same u w = some true)
    (hab : s.entriesEqual? same a b = some true) (hbc : s.entriesEqual? same b c = some true) :
    s.entriesEqual? same a c = some true := by
  rw [entriesEqual?_eq_true_iff] at hab hbc ⊢
  generalize (s.entries a).toList = first at hab ⊢
  generalize (s.entries b).toList = middle at hab hbc
  generalize (s.entries c).toList = last at hbc ⊢
  induction hab generalizing last with
  | nil => exact hbc
  | cons hrow _ ih =>
    obtain ⟨row, rest, hrow', hrest, rfl⟩ := List.forall₂_cons_left_iff.1 hbc
    exact .cons ⟨hrow.1.trans hrow'.1, h _ _ _ hrow.2 hrow'.2⟩ (ih rest hrest)

theorem entriesEqual?_mono (h : ∀ u v b, same u v = some b → same' u v = some b) {answer : Bool}
    (hentries : s.entriesEqual? same a b = some answer) :
    s.entriesEqual? same' a b = some answer := by
  rw [entriesEqual?] at hentries ⊢
  split
  · next hsize =>
    rw [if_pos hsize] at hentries
    exact rowsEqual?_mono h hentries
  · next hsize =>
    rw [if_neg hsize] at hentries
    exact hentries

end Containers

/-! ## Laws of the comparison entry by entry -/

section Laws

variable {depth : Nat} {b : Bool}

theorem entrywiseTo?_self_ne_false (s : Store) (depth : Nat) (v : Value) :
    s.entrywiseTo? depth v v ≠ some false := by
  induction depth generalizing v with
  | zero => exact equalGiven?_self_ne_false (fun a => by simp) v
  | succ depth ih =>
    refine equalGiven?_self_ne_false (fun a => ?_) v
    rw [entriesEqual?, if_pos rfl]
    exact rowsEqual?_self_ne_false ih _

theorem entrywiseTo?_symm (h : s.entrywiseTo? depth v w = some true) :
    s.entrywiseTo? depth w v = some true := by
  induction depth generalizing v w with
  | zero => exact equalGiven?_symm (fun a b hab => by cases hab) h
  | succ depth ih =>
    refine equalGiven?_symm (fun a b hab => ?_) h
    rw [entriesEqual?_eq_true_iff] at hab ⊢
    exact (hab.imp fun j k hjk => ⟨hjk.1.symm, ih hjk.2⟩).flip

theorem entrywiseTo?_trans (huv : s.entrywiseTo? depth u v = some true)
    (hvw : s.entrywiseTo? depth v w = some true) : s.entrywiseTo? depth u w = some true := by
  induction depth generalizing u v w with
  | zero => exact equalGiven?_trans (fun a b c hab => by cases hab) huv hvw
  | succ depth ih =>
    exact equalGiven?_trans (fun a b c => entriesEqual?_trans fun u v w => ih) huv hvw

/-- An answer stays when more levels are allowed. -/
theorem entrywiseTo?_le {depth' : Nat} (hle : depth ≤ depth')
    (h : s.entrywiseTo? depth v w = some b) : s.entrywiseTo? depth' v w = some b := by
  induction depth generalizing depth' v w b with
  | zero =>
    cases depth' with
    | zero => exact h
    | succ depth' => exact equalGiven?_mono (fun a b c habc => by cases habc) h
  | succ depth ih =>
    cases depth' with
    | zero => cases hle
    | succ depth' =>
      refine equalGiven?_mono (fun a b c => entriesEqual?_mono fun u v answer => ?_) h
      exact ih (Nat.le_of_succ_le_succ hle)

/-- The shortcut for one container agrees with every answer of the comparison entry by entry. -/
theorem equalTo?_of_entrywiseTo? (h : s.entrywiseTo? depth v w = some b) :
    s.equalTo? depth v w = some b := by
  induction depth generalizing v w b with
  | zero =>
    rw [equalTo?_eq]
    exact equalGiven?_mono (fun a b c habc => by cases habc) h
  | succ depth ih =>
    rw [equalTo?_eq]
    refine equalGiven?_mono (fun a b answer hab => ?_) h
    by_cases hsame : a = b
    · subst hsame
      have htrue : answer = true := by
        cases answer with
        | true => rfl
        | false => exact absurd hab (s.entrywiseTo?_self_ne_false (depth + 1) (.array a))
      rw [arraysEqualTo?, if_pos rfl, htrue]
    · rw [arraysEqualTo?, if_neg hsame]
      exact entriesEqual?_mono (fun u v answer => ih) hab

end Laws

/-! ## Depth -/

/-- A container holds another one under some key. -/
def Holds (s : Store) (a b : ArrayRef) : Prop :=
  ∃ key, (key, Value.array b) ∈ (s.entries a).toList

/-- No container reaches itself through the arrays that containers hold. -/
def Acyclic (s : Store) : Prop :=
  ∀ a, ¬ Relation.TransGen s.Holds a a

/-- Containers that hold only newer ones do not reach themselves. -/
theorem acyclic_of_increasing (h : ∀ a b, s.Holds a b → a.index < b.index) : s.Acyclic := by
  have hreach : ∀ {a b}, Relation.TransGen s.Holds a b → a.index < b.index := by
    intro a b hab
    induction hab with
    | single hab => exact h _ _ hab
    | tail _ hbc ih => exact Nat.lt_trans ih (h _ _ hbc)
  exact fun a haa => Nat.lt_irrefl _ (hreach haa)

theorem lt_size_of_mem_entries {a : ArrayRef} {row : String × Value}
    (h : row ∈ (s.entries a).toList) : a.index < s.containers.size := by
  refine Nat.lt_of_not_le fun hle => ?_
  rw [entries, Array.getElem?_eq_none hle] at h
  cases h

/-- A comparison without an answer has gone down through as many containers as it may. -/
theorem exists_path {depth : Nat} (h : s.entrywiseTo? depth v w = none) :
    ∃ path : List ArrayRef, path.length = depth ∧ path.IsChain s.Holds ∧
      (∀ a ∈ path, a.index < s.containers.size) ∧ ∀ a ∈ path.head?, v = .array a := by
  induction depth generalizing v w with
  | zero => exact ⟨[], rfl, .nil, by simp, by simp⟩
  | succ depth ih =>
    rw [entrywiseTo?] at h
    rcases arrays_or_flat v w with ⟨a, b, rfl, rfl⟩ | ⟨-, hflat⟩
    · have hrows : rowsEqual? (s.entrywiseTo? depth) (s.entries a).toList (s.entries b).toList =
          none := by
        rw [equalGiven?, entriesEqual?] at h
        split at h
        · exact h
        · cases h
      obtain ⟨⟨key, u⟩, hrow, row', -, hnone⟩ := exists_of_rowsEqual?_eq_none hrows
      obtain ⟨path, hlength, hchain, hbound, hhead⟩ := ih hnone
      refine ⟨a :: path, by rw [List.length_cons, hlength], ?_, ?_, ?_⟩
      · refine List.isChain_cons.2 ⟨fun next hnext => ⟨key, ?_⟩, hchain⟩
        rw [← hhead next hnext]
        exact hrow
      · intro r hr
        rcases List.mem_cons.1 hr with rfl | hr
        · exact lt_size_of_mem_entries hrow
        · exact hbound r hr
      · intro r hr
        rw [Option.some.inj hr]
    · rw [hflat] at h
      cases h

theorem Acyclic.length_le (h : s.Acyclic) {path : List ArrayRef} (hchain : path.IsChain s.Holds)
    (hbound : ∀ a ∈ path, a.index < s.containers.size) : path.length ≤ s.containers.size := by
  have hreach : path.Pairwise (Relation.TransGen s.Holds) :=
    (hchain.imp fun a b => Relation.TransGen.single).pairwise
  have honce : (path.map ArrayRef.index).Nodup := by
    refine List.pairwise_map.2 (hreach.imp ?_)
    rintro ⟨i⟩ ⟨j⟩ hij rfl
    exact h _ hij
  have hrange : path.map ArrayRef.index ⊆ List.range s.containers.size := by
    intro i hi
    obtain ⟨a, ha, rfl⟩ := List.mem_map.1 hi
    exact List.mem_range.2 (hbound a ha)
  have hle := (List.subperm_of_subset honce hrange).length_le
  rwa [List.length_map, List.length_range] at hle

/-- Without cycles, as many levels as there are containers are enough. -/
theorem Acyclic.entrywiseTo?_isSome (h : s.Acyclic) {depth : Nat}
    (hdepth : s.containers.size < depth) (v w : Value) :
    ∃ b, s.entrywiseTo? depth v w = some b := by
  cases hanswer : s.entrywiseTo? depth v w with
  | some b => exact ⟨b, rfl⟩
  | none =>
    obtain ⟨path, hlength, hchain, hbound, -⟩ := exists_path hanswer
    have hle := h.length_le hchain hbound
    omega

theorem Acyclic.entrywiseTo?_eq_equal? (h : s.Acyclic) {depth : Nat}
    (hdepth : s.containers.size < depth) (v w : Value) :
    s.entrywiseTo? depth v w = s.equal? v w := by
  have hlimit : s.containers.size < s.containers.size * s.containers.size + 1 :=
    Nat.lt_succ_of_le (Nat.le_mul_self _)
  obtain ⟨b, hb⟩ := h.entrywiseTo?_isSome (Nat.lt_succ_self s.containers.size) v w
  rw [equal?, equalTo?_of_entrywiseTo? (entrywiseTo?_le hlimit hb), entrywiseTo?_le hdepth hb]

/-- Equality of values on a store in which no container reaches itself.  Comparing two values ends,
with the same answer however many levels are allowed beyond the number of containers.  Equality is
an equivalence.  Comparing a container with itself entry by entry, instead of taking it as equal,
changes no answer at any depth. -/
theorem equality_is_equivalence (h : s.Acyclic) :
    (∀ v w, ∃ b, s.equal? v w = some b ∧
      ∀ depth, s.containers.size < depth → s.equalTo? depth v w = some b) ∧
    (Equivalence fun v w => s.equal? v w = some true) ∧
    ∀ v w depth, s.containers.size < depth → s.entrywiseTo? depth v w = s.equal? v w := by
  have hagree := fun v w => h.entrywiseTo?_eq_equal? (Nat.lt_succ_self s.containers.size) v w
  refine ⟨fun v w => ?_, ⟨fun v => ?_, fun {v w} hvw => ?_, fun {u v w} huv hvw => ?_⟩,
    fun v w depth hdepth => h.entrywiseTo?_eq_equal? hdepth v w⟩
  · obtain ⟨b, hb⟩ := h.entrywiseTo?_isSome (Nat.lt_succ_self _) v w
    refine ⟨b, (hagree v w).symm.trans hb, fun depth hdepth => ?_⟩
    exact equalTo?_of_entrywiseTo? (entrywiseTo?_le hdepth hb)
  · obtain ⟨b, hb⟩ := h.entrywiseTo?_isSome (Nat.lt_succ_self _) v v
    cases b with
    | true => exact (hagree v v).symm.trans hb
    | false => exact absurd hb (s.entrywiseTo?_self_ne_false _ v)
  · rw [← hagree] at hvw ⊢
    exact entrywiseTo?_symm hvw
  · rw [← hagree] at huv hvw ⊢
    exact entrywiseTo?_trans huv hvw

end Store

namespace Sample

/-- Two arrays that hold equal arrays under the same keys, one of which they share; the first holds
the shared one twice. -/
def nestedArrays : Store where
  containers := #[.ofList [("x", .array ⟨2⟩), ("y", .array ⟨2⟩)],
    .ofList [("x", .array ⟨3⟩), ("y", .array ⟨2⟩)],
    .ofList [("n", .int 1)], .ofList [("n", .int 1)]]

end Sample

namespace Store

/-- Nested arrays are equal in either order, and an array that holds one container twice is equal to
itself entry by entry. -/
theorem equality_of_nestedArrays : Sample.nestedArrays.Acyclic ∧
    Sample.nestedArrays.equal? (.array ⟨0⟩) (.array ⟨1⟩) = some true ∧
    Sample.nestedArrays.equal? (.array ⟨1⟩) (.array ⟨0⟩) = some true ∧
    Sample.nestedArrays.entrywiseTo? 5 (.array ⟨0⟩) (.array ⟨0⟩) = some true := by
  have hacyclic : Sample.nestedArrays.Acyclic := by
    refine acyclic_of_increasing ?_
    rintro ⟨i⟩ ⟨j⟩ ⟨key, hrow⟩
    have hi : i < 4 := lt_size_of_mem_entries hrow
    have hup : ∀ i < 4, ((Sample.nestedArrays.entries ⟨i⟩).toList.all fun row =>
        row.2.asArray.toOption.all fun held => i < held.index) = true := by
      decide +kernel
    simpa [Value.asArray, Except.toOption] using List.all_eq_true.1 (hup i hi) _ hrow
  obtain ⟨-, hequivalence, hentrywise⟩ := equality_is_equivalence hacyclic
  have hequal : Sample.nestedArrays.equal? (.array ⟨0⟩) (.array ⟨1⟩) = some true := by
    decide +kernel
  exact ⟨hacyclic, hequal, hequivalence.symm hequal,
    (hentrywise _ _ 5 (by decide)).trans (hequivalence.refl _)⟩

end Store

end MacroMachine
