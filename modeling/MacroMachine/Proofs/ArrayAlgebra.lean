import Mathlib.Data.List.Sort
import MacroMachine.Proofs.Operators
import MacroMachine.Proofs.SetOperators

/-!
# The algebra of arrays

Arrays under the set operators behave like sets of keys, and nearly like sets of entries.  What
keeps them from it is that a key of both sides gets the right value: a union and an intersection
commute as far as their keys go, but not in their values.  The other laws of sets hold for whole
entries.

*Terms.*  A law compares what two sequences of instructions come to.  Each instruction makes a new
array out of two others, so the operands of later instructions are arrays that earlier ones made.
`SetTerm.Yields` follows an expression through these stores, and `exists_yields` says that the array
at its end holds what the expression means as an operation on entries.

*Inclusion.*  The test whether an array has all keys of another one scans the keys of the latter.
It tells the same as a difference without entries and as an intersection that has lost no key.
-/

namespace MacroMachine

/-! ## Entries as maps -/

namespace Entries

variable {α : Type} {a b c : Entries α} {key : String} {v : α}

theorem lookup_of_mem {rows : List (String × α)} (h : Ascending rows) (hmem : (key, v) ∈ rows) :
    rows.lookup key = some v := by
  induction rows with
  | nil => cases hmem
  | cons row rest ih =>
    obtain ⟨hfirst, hrest⟩ := List.pairwise_cons.1 h
    rcases List.mem_cons.1 hmem with rfl | hmem
    · exact List.lookup_cons_self
    · have hlt : row.1 < key := hfirst _ hmem
      have hne : key ≠ row.1 := fun heq => String.lt_irrefl _ (heq ▸ hlt)
      exact (lookup_cons_of_ne row.2 hne).trans (ih hrest hmem)

theorem get?_eq_some_iff {e : Entries α} : e.get? key = some v ↔ (key, v) ∈ e.toList :=
  ⟨mem_of_get?, lookup_of_mem e.ascending⟩

/-- Entries that hold the same under every key are the same. -/
theorem ext_get? (h : ∀ key, a.get? key = b.get? key) : a = b := by
  have hmem : ∀ row, row ∈ a.toList ↔ row ∈ b.toList := by
    intro row
    rw [← get?_eq_some_iff, h, get?_eq_some_iff]
  have : Std.Irrefl fun row other : String × α => row.1 < other.1 :=
    ⟨fun _ => String.lt_irrefl _⟩
  have : Std.Antisymm fun row other : String × α => row.1 < other.1 :=
    ⟨fun _ _ hlt hgt => absurd (String.lt_trans hlt hgt) (String.lt_irrefl _)⟩
  have hrows : a.toList = b.toList := a.ascending.eq_of_mem_iff b.ascending hmem
  cases a
  cases b
  cases hrows
  rfl

theorem eq_empty_iff : a = empty ↔ ∀ key, a.contains key = false := by
  constructor
  · rintro rfl key
    rfl
  · intro h
    apply ext_get?
    intro key
    simpa [contains] using h key

/-- The same keys are in the same order. -/
theorem keys_eq_iff : a.keys = b.keys ↔ ∀ key, a.contains key = b.contains key := by
  constructor
  · intro h key
    rw [Bool.eq_iff_iff, contains_iff_mem_keys, contains_iff_mem_keys, h]
  · intro h
    refine a.pairwise_keys.eq_of_mem_iff b.pairwise_keys fun key => ?_
    rw [← contains_iff_mem_keys, h, contains_iff_mem_keys]

/-! ### Laws of the set operators -/

theorem contains_union (a b : Entries α) (key : String) :
    (a.union b).contains key = (b.contains key || a.contains key) := by
  rw [contains, get?_union, Option.isSome_or]
  rfl

theorem contains_difference (a b : Entries α) (key : String) :
    (a.difference b).contains key = (!b.contains key && a.contains key) := by
  rw [contains, get?_difference]
  cases b.contains key <;> rfl

theorem contains_intersection (a b : Entries α) (key : String) :
    (a.intersection b).contains key = (a.contains key && b.contains key) := by
  rw [contains, get?_intersection]
  cases a.contains key <;> rfl

theorem union_assoc (a b c : Entries α) : (a.union b).union c = a.union (b.union c) := by
  apply ext_get?
  intro key
  simp only [get?_union, Option.or_assoc]

theorem union_self (a : Entries α) : a.union a = a := by
  apply ext_get?
  intro key
  simp only [get?_union, Option.or_self]

theorem intersection_assoc (a b c : Entries α) :
    (a.intersection b).intersection c = a.intersection (b.intersection c) := by
  apply ext_get?
  intro key
  simp only [get?_intersection, contains_intersection]
  cases a.contains key <;> cases b.contains key <;> rfl

theorem intersection_self (a : Entries α) : a.intersection a = a := by
  apply ext_get?
  intro key
  rw [get?_intersection, contains]
  cases a.get? key <;> rfl

theorem difference_self (a : Entries α) : a.difference a = empty := by
  apply ext_get?
  intro key
  rw [get?_difference, contains]
  cases a.get? key <;> rfl

theorem keys_union_comm (a b : Entries α) : (a.union b).keys = (b.union a).keys := by
  rw [keys_eq_iff]
  intro key
  simp only [contains_union, Bool.or_comm]

theorem keys_intersection_comm (a b : Entries α) :
    (a.intersection b).keys = (b.intersection a).keys := by
  rw [keys_eq_iff]
  intro key
  simp only [contains_intersection, Bool.and_comm]

theorem intersection_union (a b c : Entries α) :
    a.intersection (b.union c) = (a.intersection b).union (a.intersection c) := by
  apply ext_get?
  intro key
  simp only [get?_intersection, get?_union]
  cases a.contains key <;> rfl

/-- What two sides have in common, with the values of the first one, and what the first one has
alone make it up. -/
theorem difference_union_intersection (a b : Entries α) :
    (a.difference b).union (b.intersection a) = a := by
  apply ext_get?
  intro key
  simp only [get?_union, get?_intersection, get?_difference]
  cases b.contains key <;> simp

/-! ### Inclusion -/

theorem all_contains_iff :
    a.keys.all b.contains = true ↔ ∀ key, a.contains key = true → b.contains key = true := by
  simp only [List.all_eq_true, ← contains_iff_mem_keys]

theorem difference_eq_empty_iff :
    a.difference b = empty ↔ ∀ key, a.contains key = true → b.contains key = true := by
  rw [eq_empty_iff]
  apply forall_congr'
  intro key
  rw [contains_difference]
  cases a.contains key <;> cases b.contains key <;> decide

theorem keys_intersection_eq_iff :
    (a.intersection b).keys = a.keys ↔ ∀ key, a.contains key = true → b.contains key = true := by
  rw [keys_eq_iff]
  apply forall_congr'
  intro key
  rw [contains_intersection]
  cases a.contains key <;> cases b.contains key <;> decide

end Entries

/-! ## Set terms -/

/-- The operators that mean something for two arrays.  Two of them mean the same. -/
inductive SetOperator where
  | union
  | sum
  | difference
  | intersection
deriving DecidableEq, Repr

namespace SetOperator

/-- The instruction for an operator. -/
def opcode : SetOperator → Opcode
  | union => .bitOr
  | sum => .add
  | difference => .subtract
  | intersection => .bitAnd

/-- The entries that an operator makes of two others. -/
def merge : SetOperator → Entries Value → Entries Value → Entries Value
  | union | sum => .union
  | difference => .difference
  | intersection => .intersection

/-- A new array with the entries that an operator makes of those of two others. -/
def make (op : SetOperator) (store : Store) (a b : ArrayRef) : ArrayRef × Store :=
  store.alloc (op.merge (store.entries a) (store.entries b))

variable {host : Host} {store : Store}

theorem carryOut_opcode (op : SetOperator) :
    ∃ f, ∀ invoke, Execution.carryOut invoke op.opcode = Execution.arrayOrInt op.make f := by
  cases op with
  | union | sum | difference | intersection => exact ⟨_, fun _ => rfl⟩

theorem evaluates_of_computes (op : SetOperator) {left right : Value}
    {answer : Except Fault (List Value × Store)}
    (h : ∀ f, Computes (Execution.arrayOrInt op.make f) [left, right] store answer) :
    Evaluates host op.opcode [] [left, right] store answer := by
  obtain ⟨f, hf⟩ := op.carryOut_opcode
  have hslots : op.opcode.operandCount = 0 := by cases op <;> rfl
  exact .of_operator hslots hf (h f)

/-- On two arrays an operator makes a new array. -/
theorem evaluates (op : SetOperator) (host : Host) (store : Store) (a b : ArrayRef) :
    Evaluates host op.opcode [] [.array a, .array b] store
      (.ok ([.array (op.make store a b).1], (op.make store a b).2)) :=
  op.evaluates_of_computes fun f => Execution.Operator.computes_arrayOrInt op.make f a b store

/-- An array on the right of anything else is refused. -/
theorem refuses_array_right (op : SetOperator) (host : Host) (store : Store) {v : Value}
    (b : ArrayRef) (hv : v.isArray = false) :
    Evaluates host op.opcode [] [v, .array b] store (.error (.mismatch .mixedOperands)) :=
  op.evaluates_of_computes fun f =>
    Execution.Operator.computes_arrayOrInt_of_array_right op.make f b hv store

theorem refuses_array_left (op : SetOperator) (host : Host) (store : Store) {v : Value}
    (a : ArrayRef) (hv : v.isArray = false) :
    ∃ why, Evaluates host op.opcode [] [.array a, v] store (.error (.mismatch why)) := by
  obtain ⟨why, h⟩ := Execution.Operator.computes_arrayOrInt_of_array_left a hv store
  exact ⟨why, op.evaluates_of_computes (h op.make)⟩

end SetOperator

/-- An expression over arrays that are there. -/
inductive SetTerm where
  | array (ref : ArrayRef)
  | apply (op : SetOperator) (left right : SetTerm)
deriving DecidableEq, Repr

namespace SetTerm

/-- The array that the instructions of a term come to, one after the other, and the store that they
leave. -/
inductive Yields (host : Host) : Store → SetTerm → ArrayRef → Store → Prop where
  | array {store : Store} {ref : ArrayRef} : Yields host store (.array ref) ref store
  | apply {store store₁ store₂ store₃ : Store} {op : SetOperator} {left right : SetTerm}
      {x y z : ArrayRef} :
      Yields host store left x store₁ → Yields host store₁ right y store₂ →
      Evaluates host op.opcode [] [.array x, .array y] store₂ (.ok ([.array z], store₃)) →
      Yields host store (.apply op left right) z store₃

/-- The arrays of a term are there. -/
def Over (store : Store) : SetTerm → Prop
  | array ref => ref.index < store.containers.size
  | apply _ left right => left.Over store ∧ right.Over store

/-- What a term means without any machine. -/
def meaning (store : Store) : SetTerm → Entries Value
  | array ref => store.entries ref
  | apply op left right => op.merge (left.meaning store) (right.meaning store)

variable {host : Host} {store after : Store} {t : SetTerm}

theorem Over.grows (h : t.Over store) (hgrows : store.Grows after) : t.Over after := by
  induction t with
  | array ref => exact Nat.lt_of_lt_of_le h hgrows.size
  | apply op left right hleft hright => exact ⟨hleft h.1, hright h.2⟩

theorem meaning_of_grows (h : t.Over store) (hgrows : store.Grows after) :
    t.meaning after = t.meaning store := by
  induction t with
  | array ref => exact hgrows.entries ref h
  | apply op left right hleft hright => rw [meaning, hleft h.1, hright h.2, meaning]

/-- A term over arrays that are there comes to an array with the entries that the term means. -/
theorem exists_yields (host : Host) (h : t.Over store) :
    ∃ z after, Yields host store t z after ∧ store.Grows after ∧
      z.index < after.containers.size ∧ after.entries z = t.meaning store := by
  induction t generalizing store with
  | array ref => exact ⟨ref, store, .array, .refl store, h, rfl⟩
  | apply op left right hleft hright =>
    obtain ⟨x, store₁, hx, hgrows₁, hexists, hentries⟩ := hleft h.1
    obtain ⟨y, store₂, hy, hgrows₂, -, hentries'⟩ := hright (h.2.grows hgrows₁)
    -- what the left operand came to is still there when the right one is known
    have hxs : store₂.entries x = left.meaning store := (hgrows₂.entries x hexists).trans hentries
    have hys : store₂.entries y = right.meaning store :=
      hentries'.trans (meaning_of_grows h.2 hgrows₁)
    refine ⟨_, _, .apply hx hy (op.evaluates host store₂ x y),
      (hgrows₁.trans hgrows₂).trans (.alloc _ _), ?_, ?_⟩
    · simp [SetOperator.make, Store.alloc]
    · rw [SetOperator.make, Store.entries_alloc, hxs, hys, meaning]

theorem Yields.unique {z z' : ArrayRef} {after' : Store} (h : Yields host store t z after)
    (h' : Yields host store t z' after') : z = z' ∧ after = after' := by
  induction h generalizing z' after' with
  | array =>
    cases h'
    exact ⟨rfl, rfl⟩
  | apply _ _ hop hleft hright =>
    cases h' with
    | apply hx hy hop' =>
      obtain ⟨rfl, rfl⟩ := hleft hx
      obtain ⟨rfl, rfl⟩ := hright hy
      cases hop.unique hop'
      exact ⟨rfl, rfl⟩

/-- A term comes to an array, and to one with these entries. -/
structure Gives (host : Host) (store : Store) (t : SetTerm) (e : Entries Value) : Prop where
  some_array : ∃ z after, Yields host store t z after
  entries : ∀ z after, Yields host store t z after → after.entries z = e

theorem gives_meaning (host : Host) (h : t.Over store) : t.Gives host store (t.meaning store) := by
  obtain ⟨z, after, hz, -, -, hentries⟩ := exists_yields host h
  refine ⟨⟨z, after, hz⟩, fun z' after' hz' => ?_⟩
  obtain ⟨rfl, rfl⟩ := hz.unique hz'
  exact hentries

/-- Two terms come to arrays with the same entries. -/
def Same (host : Host) (store : Store) (left right : SetTerm) : Prop :=
  ∃ e, left.Gives host store e ∧ right.Gives host store e

/-- Two terms come to arrays with the same keys. -/
def SameKeys (host : Host) (store : Store) (left right : SetTerm) : Prop :=
  ∃ d e, left.Gives host store d ∧ right.Gives host store e ∧ d.keys = e.keys

variable {left right : SetTerm}

theorem same_of_meaning (hleft : left.Over store) (hright : right.Over store)
    (h : left.meaning store = right.meaning store) : Same host store left right :=
  ⟨left.meaning store, gives_meaning host hleft, h ▸ gives_meaning host hright⟩

theorem sameKeys_of_meaning (hleft : left.Over store) (hright : right.Over store)
    (h : (left.meaning store).keys = (right.meaning store).keys) :
    SameKeys host store left right :=
  ⟨_, _, gives_meaning host hleft, gives_meaning host hright, h⟩

end SetTerm

/-! ## The laws -/

open SetTerm

/-- The laws of an instruction for unions, of difference and of intersection, for three arrays. -/
structure ArrayLaws (host : Host) (store : Store) (join : SetOperator) (a b c : SetTerm) :
    Prop where
  join_assoc : Same host store (.apply join (.apply join a b) c) (.apply join a (.apply join b c))
  join_self : Same host store (.apply join a a) a
  join_keys : SameKeys host store (.apply join a b) (.apply join b a)
  meet_assoc : Same host store (.apply .intersection (.apply .intersection a b) c)
    (.apply .intersection a (.apply .intersection b c))
  meet_self : Same host store (.apply .intersection a a) a
  meet_keys : SameKeys host store (.apply .intersection a b) (.apply .intersection b a)
  minus_self : Gives host store (.apply .difference a a) .empty
  meet_join : Same host store (.apply .intersection a (.apply join b c))
    (.apply join (.apply .intersection a b) (.apply .intersection a c))
  minus_join_meet : Same host store
    (.apply join (.apply .difference a b) (.apply .intersection b a)) a

theorem arrayLaws (host : Host) {store : Store} {join : SetOperator} {a b c : SetTerm}
    (hjoin : join.merge = Entries.union) (ha : a.Over store) (hb : b.Over store)
    (hc : c.Over store) : ArrayLaws host store join a b c where
  join_assoc := same_of_meaning ⟨⟨ha, hb⟩, hc⟩ ⟨ha, hb, hc⟩ <| by
    simp only [meaning, hjoin, Entries.union_assoc]
  join_self := same_of_meaning ⟨ha, ha⟩ ha <| by
    simp only [meaning, hjoin, Entries.union_self]
  join_keys := sameKeys_of_meaning ⟨ha, hb⟩ ⟨hb, ha⟩ <| by
    simp only [meaning, hjoin]
    exact Entries.keys_union_comm _ _
  meet_assoc := same_of_meaning ⟨⟨ha, hb⟩, hc⟩ ⟨ha, hb, hc⟩ (Entries.intersection_assoc _ _ _)
  meet_self := same_of_meaning ⟨ha, ha⟩ ha (Entries.intersection_self _)
  meet_keys := sameKeys_of_meaning ⟨ha, hb⟩ ⟨hb, ha⟩ (Entries.keys_intersection_comm _ _)
  minus_self := by
    have h := gives_meaning (t := .apply .difference a a) host ⟨ha, ha⟩
    rwa [show meaning store (.apply .difference a a) = .empty from Entries.difference_self _] at h
  meet_join := same_of_meaning ⟨ha, hb, hc⟩ ⟨⟨ha, hb⟩, ha, hc⟩ <| by
    simp only [meaning, hjoin]
    exact Entries.intersection_union _ _ _
  minus_join_meet := same_of_meaning ⟨⟨ha, hb⟩, hb, ha⟩ ha <| by
    simp only [meaning, hjoin]
    exact Entries.difference_union_intersection _ _

/-- A number tells whether `b` has all keys of `a`.  It agrees with what the set operators make of
the two. -/
structure Inclusion (host : Host) (store : Store) (a b : ArrayRef) (found : Bool) : Prop where
  told : Evaluates host .contains [] [.array a, .array b] store (.ok ([.ofBool found], store))
  minus : ∃ d, Gives host store (.apply .difference (.array a) (.array b)) d ∧
    (found = true ↔ d = .empty)
  meet : ∃ m, Gives host store (.apply .intersection (.array a) (.array b)) m ∧
    (found = true ↔ m.keys = (store.entries a).keys)

theorem exists_inclusion (host : Host) {store : Store} {a b : ArrayRef}
    (ha : a.index < store.containers.size) (hb : b.index < store.containers.size) :
    ∃ found, Inclusion host store a b found := by
  refine ⟨(store.entries a).keys.all (store.entries b).contains, ?_, ?_, ?_⟩
  · exact .of_operator rfl (fun _ => rfl) (Execution.Operator.computes_membership rfl)
  · refine ⟨_, gives_meaning host ⟨ha, hb⟩, ?_⟩
    rw [Entries.all_contains_iff]
    exact Entries.difference_eq_empty_iff.symm
  · refine ⟨_, gives_meaning host ⟨ha, hb⟩, ?_⟩
    rw [Entries.all_contains_iff]
    exact Entries.keys_intersection_eq_iff.symm

/-- Two arrays with a key in common, one of them an element of itself, and an empty one. -/
def Sample.arrays : Store :=
  ⟨#[.ofList [("k", .int 1), ("self", .array ⟨0⟩)], .ofList [("k", .text "x"), ("m", .unset)],
    .empty]⟩

end MacroMachine
