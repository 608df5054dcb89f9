import MacroMachine.Proofs.ByteOrder
import MacroMachine.Store

/-!
# Set operators key by key

Union, difference and intersection walk two rows of entries in key order at the same time.  This
module says what they come to without the walk: what the result holds under a key is picked from
what the two sides hold under that key.

*Why order matters.*  Where the walk passes a key that only one side has, the other side has gone
beyond it already.  So a key that is passed occurs neither in what is left of that side nor in what
the walk yields later (`lt_of_mem_mergeRows`).
-/

namespace MacroMachine

variable {α : Type}

/-- Which sides hold a key, given what each of them holds there. -/
def Side.of? : Option α → Option α → Option (Side α)
  | none, none => none
  | some u, none => some (.left u)
  | none, some v => some (.right v)
  | some u, some v => some (.both u v)

namespace Entries

variable {key : String} {rows : List (String × α)}

/-- A key below all others is not among them. -/
theorem lookup_eq_none_of_lt (h : ∀ row ∈ rows, key < row.1) : rows.lookup key = none := by
  refine List.lookup_eq_none_iff.2 fun row hrow => ?_
  rw [bne_iff_ne]
  rintro rfl
  exact String.lt_irrefl _ (h row hrow)

theorem lookup_cons_of_ne {other : String} (v : α) (h : key ≠ other) :
    ((other, v) :: rows).lookup key = rows.lookup key := by
  have hne : (key == other) = false := beq_eq_false_iff_ne.2 h
  rw [List.lookup_cons, hne]

/-- A row that begins with at most one entry, below all the others. -/
theorem lookup_append_first {first : Option α} {least : String}
    (h : ∀ row ∈ rows, least < row.1) :
    ((first.map (least, ·)).toList ++ rows).lookup key =
      if key = least then first else rows.lookup key := by
  cases first with
  | none =>
    by_cases hkey : key = least
    · subst hkey
      simpa using lookup_eq_none_of_lt h
    · simp [hkey]
  | some v =>
    by_cases hkey : key = least
    · simp [hkey]
    · rw [if_neg hkey]
      exact lookup_cons_of_ne v hkey

/-- What is picked from the entries of a row in order. -/
theorem lookup_filterMap (pick : α → Option α) (h : Ascending rows) :
    (rows.filterMap fun (k, v) => (pick v).map (k, ·)).lookup key =
      (rows.lookup key).bind pick := by
  induction rows with
  | nil => rfl
  | cons row rest ih =>
    obtain ⟨k, v⟩ := row
    obtain ⟨hk, hrest⟩ := List.pairwise_cons.1 h
    have hcons : (((k, v) :: rest).filterMap fun (k, v) => (pick v).map (k, ·)) =
        ((pick v).map (k, ·)).toList ++ rest.filterMap fun (k, v) => (pick v).map (k, ·) := by
      rw [List.filterMap_cons]
      cases hpick : pick v with
      | none => simp only [hpick, Option.map_none, Option.toList_none, List.nil_append]
      | some u => simp only [hpick, Option.map_some, Option.toList_some, List.singleton_append]
    rw [hcons, lookup_append_first, ih hrest]
    · by_cases hkey : key = k
      · simp [hkey]
      · rw [if_neg hkey, lookup_cons_of_ne v hkey]
    · intro row hrow
      obtain ⟨old, hold, hmap⟩ := List.mem_filterMap.1 hrow
      obtain ⟨u, -, rfl⟩ := Option.map_eq_some_iff.1 hmap
      exact hk old hold

/-- What a merged row holds under a key is picked from what the two rows hold there. -/
theorem lookup_mergeRows (pick : Side α → Option α) {left right : List (String × α)}
    (hleft : Ascending left) (hright : Ascending right) (key : String) :
    (mergeRows pick left right).lookup key =
      (Side.of? (left.lookup key) (right.lookup key)).bind pick := by
  induction left, right using mergeRows.induct with
  | case1 right =>
    rw [mergeRows, lookup_filterMap (fun v => pick (.right v)) hright]
    cases right.lookup key with
    | none => rfl
    | some v => rfl
  | case2 left hne =>
    rw [mergeRows.eq_2 pick left hne, lookup_filterMap (fun u => pick (.left u)) hleft]
    cases left.lookup key with
    | none => rfl
    | some u => rfl
  | case3 j u left k v right hlt ih =>
    obtain ⟨hj, hleft⟩ := List.pairwise_cons.1 hleft
    -- the right side has gone beyond `j`
    have hbeyond : ∀ row ∈ (k, v) :: right, j < row.1 := by
      intro row hrow
      rcases List.mem_cons.1 hrow with rfl | hrow
      · exact hlt
      · exact String.lt_trans hlt ((List.pairwise_cons.1 hright).1 row hrow)
    rw [mergeRows, if_pos hlt, lookup_append_first (lt_of_mem_mergeRows hj hbeyond),
      ih hleft hright]
    by_cases hkey : key = j
    · subst hkey
      rw [if_pos rfl, lookup_eq_none_of_lt hbeyond, List.lookup_cons_self]
      rfl
    · rw [if_neg hkey, lookup_cons_of_ne u hkey]
  | case4 j u left k v right hge hlt ih =>
    obtain ⟨hk, hright⟩ := List.pairwise_cons.1 hright
    have hbeyond : ∀ row ∈ (j, u) :: left, k < row.1 := by
      intro row hrow
      rcases List.mem_cons.1 hrow with rfl | hrow
      · exact hlt
      · exact String.lt_trans hlt ((List.pairwise_cons.1 hleft).1 row hrow)
    rw [mergeRows, if_neg hge, if_pos hlt, lookup_append_first (lt_of_mem_mergeRows hbeyond hk),
      ih hleft hright]
    by_cases hkey : key = k
    · subst hkey
      rw [if_pos rfl, lookup_eq_none_of_lt hbeyond, List.lookup_cons_self]
      rfl
    · rw [if_neg hkey, lookup_cons_of_ne v hkey]
  | case5 j u left k v right hge hle ih =>
    have hjk : j = k := String.le_antisymm (String.not_lt.1 hle) (String.not_lt.1 hge)
    subst hjk
    obtain ⟨hj, hleft⟩ := List.pairwise_cons.1 hleft
    obtain ⟨hk, hright⟩ := List.pairwise_cons.1 hright
    rw [mergeRows, if_neg hge, if_neg hle, lookup_append_first (lt_of_mem_mergeRows hj hk),
      ih hleft hright]
    by_cases hkey : key = j
    · subst hkey
      rw [if_pos rfl, List.lookup_cons_self, List.lookup_cons_self]
      rfl
    · rw [if_neg hkey, lookup_cons_of_ne u hkey, lookup_cons_of_ne v hkey]

theorem get?_mergeWith (pick : Side α → Option α) (left right : Entries α) (key : String) :
    (mergeWith pick left right).get? key =
      (Side.of? (left.get? key) (right.get? key)).bind pick :=
  lookup_mergeRows pick left.ascending right.ascending key

/-- A union holds what the right side holds, and where that holds nothing what the left side
does. -/
theorem get?_union (left right : Entries α) (key : String) :
    (left.union right).get? key = (right.get? key).or (left.get? key) := by
  rw [union, get?_mergeWith]
  cases left.get? key <;> cases right.get? key <;> rfl

/-- A difference holds what the left side holds where the right side holds nothing. -/
theorem get?_difference (left right : Entries α) (key : String) :
    (left.difference right).get? key = if right.contains key then none else left.get? key := by
  rw [difference, get?_mergeWith, contains]
  cases left.get? key <;> cases right.get? key <;> rfl

/-- An intersection holds what the right side holds where the left side holds something. -/
theorem get?_intersection (left right : Entries α) (key : String) :
    (left.intersection right).get? key = if left.contains key then right.get? key else none := by
  rw [intersection, get?_mergeWith, contains]
  cases left.get? key <;> cases right.get? key <;> rfl

theorem mem_keys_iff {e : Entries α} : key ∈ e.keys ↔ ∃ value, e.get? key = some value := by
  rw [← contains_iff_mem_keys, contains, Option.isSome_iff_exists]

/-- The keys are in increasing order of their bytes. -/
theorem pairwise_utf8Bytes_keys (e : Entries α) :
    e.keys.Pairwise fun j k => utf8Bytes j < utf8Bytes k :=
  e.pairwise_keys.imp fun hlt => (lt_iff_utf8Bytes_lt _ _).1 hlt

end Entries

/-! ## Containers -/

namespace Store

/-- A container is made that no name led to before.  The containers that were there hold what they
held.  The new one has the keys under which there is a value, in increasing order of their bytes,
and holds the values there. -/
structure Makes (s : Store) (made : ArrayRef × Store) (value : String → Option Value) : Prop where
  fresh : made.1.index = s.containers.size
  exists_made : made.1.index < made.2.containers.size
  kept : ∀ ref : ArrayRef, ref.index < s.containers.size → made.2.entries ref = s.entries ref
  holds : ∀ key, (made.2.entries made.1).get? key = value key
  keys : ∀ key, key ∈ (made.2.entries made.1).keys ↔ ∃ v, value key = some v
  increasing : (made.2.entries made.1).keys.Pairwise fun j k => utf8Bytes j < utf8Bytes k

theorem makes_alloc (s : Store) {e : Entries Value} {value : String → Option Value}
    (h : ∀ key, e.get? key = value key) : s.Makes (s.alloc e) value where
  fresh := rfl
  exists_made := by simp [alloc]
  kept ref hexists := s.entries_alloc_of_ne e fun heq => by
    rw [heq] at hexists
    exact Nat.lt_irrefl _ hexists
  holds key := by rw [entries_alloc, h]
  keys key := by rw [entries_alloc, Entries.mem_keys_iff, h]
  increasing := by
    rw [entries_alloc]
    exact e.pairwise_utf8Bytes_keys

/-- The set operators make a new container and change no other one, also if both operands are one
container.  Under every key the union holds the right value if there is one and else the left value;
the difference holds the left value if the right side lacks the key; the intersection holds the
right value if the left side has the key. -/
theorem set_operators_by_key (s : Store) (left right : ArrayRef) :
    s.Makes (s.union left right) (fun key =>
      ((s.entries right).get? key).or ((s.entries left).get? key)) ∧
    s.Makes (s.difference left right) (fun key =>
      if (s.entries right).contains key then none else (s.entries left).get? key) ∧
    s.Makes (s.intersection left right) (fun key =>
      if (s.entries left).contains key then (s.entries right).get? key else none) :=
  ⟨s.makes_alloc (Entries.get?_union _ _), s.makes_alloc (Entries.get?_difference _ _),
    s.makes_alloc (Entries.get?_intersection _ _)⟩

end Store

end MacroMachine
