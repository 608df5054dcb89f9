/-!
# Entries

The contents of an array: values under text keys, in increasing order of the keys.  Keys compare by
code points, which is the order of their UTF-8 bytes.

*Set operators.*  Union, difference and intersection walk both sides in key order at the same time
and decide for each key, from the side or sides that have it, what the result holds (`mergeWith`).
-/

namespace MacroMachine

/-- A row of values under text keys, in increasing order of the keys. -/
def Ascending {α : Type} (rows : List (String × α)) : Prop :=
  rows.Pairwise fun a b => a.1 < b.1

/-- Values under text keys, in increasing order of the keys. -/
structure Entries (α : Type) where
  toList : List (String × α)
  ascending : Ascending toList
deriving DecidableEq, Repr

/-- Which of two sides holds a key, and what it holds there. -/
inductive Side (α : Type) where
  | left (value : α)
  | right (value : α)
  | both (left right : α)
deriving DecidableEq, Repr

namespace Entries

variable {α : Type}

/-- No entries. -/
def empty : Entries α :=
  ⟨[], .nil⟩

instance : Inhabited (Entries α) :=
  ⟨empty⟩

/-- The number of entries. -/
def size (e : Entries α) : Nat :=
  e.toList.length

/-- Whether there are no entries. -/
def isEmpty (e : Entries α) : Bool :=
  e.toList.isEmpty

/-- The keys, in increasing order. -/
def keys (e : Entries α) : List String :=
  e.toList.map Prod.fst

/-- The value under a key. -/
def get? (e : Entries α) (key : String) : Option α :=
  e.toList.lookup key

/-- Whether there is a value under a key. -/
def contains (e : Entries α) (key : String) : Bool :=
  (e.get? key).isSome

/-! ## Changes -/

/-- Puts an entry at its place in a row of entries. -/
def place (key : String) (value : α) : List (String × α) → List (String × α)
  | [] => [(key, value)]
  | (k, v) :: rest =>
    if key < k then (key, value) :: (k, v) :: rest
    else if k < key then (k, v) :: place key value rest
    else (key, value) :: rest

theorem mem_place {key : String} {value : α} {rows : List (String × α)} {entry : String × α}
    (h : entry ∈ place key value rows) : entry ∈ rows ∨ entry = (key, value) := by
  induction rows with
  | nil => exact .inr (List.mem_singleton.1 h)
  | cons row rest ih =>
    obtain ⟨k, v⟩ := row
    simp only [place] at h
    split at h
    · exact (List.mem_cons.1 h).symm
    · split at h
      · rcases List.mem_cons.1 h with rfl | h
        · exact .inl List.mem_cons_self
        · exact (ih h).imp_left (List.mem_cons_of_mem _)
      · exact (List.mem_cons.1 h).symm.imp_left (List.mem_cons_of_mem _)

/-- Placing an entry keeps a row in order. -/
theorem ascending_place (key : String) (value : α) {rows : List (String × α)}
    (h : Ascending rows) : Ascending (place key value rows) := by
  induction rows with
  | nil => exact List.pairwise_singleton _ _
  | cons row rest ih =>
    obtain ⟨k, v⟩ := row
    obtain ⟨hfirst, hrest⟩ := List.pairwise_cons.1 h
    simp only [place]
    split
    · next hlt =>
      refine List.pairwise_cons.2 ⟨fun entry hentry => ?_, h⟩
      rcases List.mem_cons.1 hentry with rfl | hentry
      · exact hlt
      · exact String.lt_trans hlt (hfirst entry hentry)
    · next hge =>
      split
      · next hlt =>
        refine List.pairwise_cons.2 ⟨fun entry hentry => ?_, ih hrest⟩
        rcases mem_place hentry with hentry | rfl
        · exact hfirst entry hentry
        · exact hlt
      · next hle =>
        have hkey : key = k := String.le_antisymm (String.not_lt.1 hle) (String.not_lt.1 hge)
        subst hkey
        exact List.pairwise_cons.2 ⟨hfirst, hrest⟩

/-- Stores a value under a key, in place of an earlier one. -/
def insert (e : Entries α) (key : String) (value : α) : Entries α :=
  ⟨place key value e.toList, ascending_place key value e.ascending⟩

/-- Removes the entry under a key, if there is one. -/
def erase (e : Entries α) (key : String) : Entries α :=
  ⟨e.toList.filter fun entry => entry.1 != key, e.ascending.filter _⟩

/-- Entries with the given keys and values; of two entries under one key the later stays. -/
def ofList (entries : List (String × α)) : Entries α :=
  entries.foldl (fun e entry => e.insert entry.1 entry.2) empty

/-- The least key. -/
def firstKey? (e : Entries α) : Option String :=
  e.keys.head?

/-- The least key above a given one. -/
def keyAfter? (e : Entries α) (key : String) : Option String :=
  e.keys.find? fun k => key < k

/-! ## Set operators -/

/-- Walks two rows in key order and keeps for each key what `pick` makes of it. -/
def mergeRows (pick : Side α → Option α) :
    List (String × α) → List (String × α) → List (String × α)
  | [], right => right.filterMap fun (k, v) => (pick (.right v)).map (k, ·)
  | left, [] => left.filterMap fun (k, v) => (pick (.left v)).map (k, ·)
  | (j, u) :: left, (k, v) :: right =>
    if j < k then
      ((pick (.left u)).map (j, ·)).toList ++ mergeRows pick left ((k, v) :: right)
    else if k < j then
      ((pick (.right v)).map (k, ·)).toList ++ mergeRows pick ((j, u) :: left) right
    else
      ((pick (.both u v)).map (j, ·)).toList ++ mergeRows pick left right
termination_by left right => left.length + right.length

/-- The rows that hold a key on each side. -/
def HeldBy (left right : List (String × α)) (key : String) : Side α → Prop
  | .left u => (key, u) ∈ left
  | .right v => (key, v) ∈ right
  | .both u v => (key, u) ∈ left ∧ (key, v) ∈ right

theorem HeldBy.mono {left left' right right' : List (String × α)} {key : String} {side : Side α}
    (h : HeldBy left right key side) (hleft : ∀ row ∈ left, row ∈ left')
    (hright : ∀ row ∈ right, row ∈ right') : HeldBy left' right' key side := by
  cases side with
  | left u => exact hleft _ h
  | right v => exact hright _ h
  | both u v => exact ⟨hleft _ h.1, hright _ h.2⟩

/-- What a merged row holds is picked from the rows that hold its key. -/
theorem mem_mergeRows {pick : Side α → Option α} {left right : List (String × α)}
    {entry : String × α} (h : entry ∈ mergeRows pick left right) :
    ∃ side, HeldBy left right entry.1 side ∧ pick side = some entry.2 := by
  have picked : ∀ {key : String} {side : Side α}, (pick side).map (key, ·) = some entry →
      entry.1 = key ∧ pick side = some entry.2 := by
    intro key side hmap
    obtain ⟨v, hv, rfl⟩ := Option.map_eq_some_iff.1 hmap
    exact ⟨rfl, hv⟩
  induction left, right using mergeRows.induct with
  | case1 right =>
    rw [mergeRows] at h
    obtain ⟨row, hrow, hmap⟩ := List.mem_filterMap.1 h
    obtain ⟨hkey, hv⟩ := picked hmap
    exact ⟨.right row.2, hkey ▸ hrow, hv⟩
  | case2 left hleft =>
    rw [mergeRows.eq_2 pick left hleft] at h
    obtain ⟨row, hrow, hmap⟩ := List.mem_filterMap.1 h
    obtain ⟨hkey, hv⟩ := picked hmap
    exact ⟨.left row.2, hkey ▸ hrow, hv⟩
  | case3 j u left k v right hlt ih =>
    rw [mergeRows, if_pos hlt] at h
    rcases List.mem_append.1 h with h | h
    · obtain ⟨hkey, hv⟩ := picked (Option.mem_toList.1 h)
      exact ⟨.left u, hkey ▸ List.mem_cons_self, hv⟩
    · obtain ⟨side, hside, hv⟩ := ih h
      exact ⟨side, hside.mono (fun _ => List.mem_cons_of_mem _) fun _ => id, hv⟩
  | case4 j u left k v right hge hlt ih =>
    rw [mergeRows, if_neg hge, if_pos hlt] at h
    rcases List.mem_append.1 h with h | h
    · obtain ⟨hkey, hv⟩ := picked (Option.mem_toList.1 h)
      exact ⟨.right v, hkey ▸ List.mem_cons_self, hv⟩
    · obtain ⟨side, hside, hv⟩ := ih h
      exact ⟨side, hside.mono (fun _ => id) fun _ => List.mem_cons_of_mem _, hv⟩
  | case5 j u left k v right hge hle ih =>
    rw [mergeRows, if_neg hge, if_neg hle] at h
    rcases List.mem_append.1 h with h | h
    · obtain ⟨hkey, hv⟩ := picked (Option.mem_toList.1 h)
      have hjk : j = k := String.le_antisymm (String.not_lt.1 hle) (String.not_lt.1 hge)
      subst hjk
      exact ⟨.both u v, hkey ▸ ⟨List.mem_cons_self, List.mem_cons_self⟩, hv⟩
    · obtain ⟨side, hside, hv⟩ := ih h
      exact ⟨side, hside.mono (fun _ => List.mem_cons_of_mem _) fun _ => List.mem_cons_of_mem _, hv⟩

/-- A key below all keys of both sides is below all keys of the merged row. -/
theorem lt_of_mem_mergeRows {pick : Side α → Option α} {left right : List (String × α)}
    {key : String} (hleft : ∀ row ∈ left, key < row.1) (hright : ∀ row ∈ right, key < row.1) :
    ∀ row ∈ mergeRows pick left right, key < row.1 := by
  intro row hrow
  obtain ⟨side, hside, -⟩ := mem_mergeRows hrow
  cases side with
  | left u => exact hleft (row.1, u) hside
  | right v => exact hright (row.1, v) hside
  | both u v => exact hleft (row.1, u) hside.1

/-- A row that begins with at most one entry, below all the others. -/
theorem ascending_append {first : Option α} {key : String} {rows : List (String × α)}
    (h : Ascending rows) (hkey : ∀ row ∈ rows, key < row.1) :
    Ascending ((first.map (key, ·)).toList ++ rows) := by
  cases first with
  | none => exact h
  | some v => exact List.pairwise_cons.2 ⟨hkey, h⟩

/-- What is picked from a row in order is in order. -/
theorem ascending_filterMap (pick : α → Option α) {rows : List (String × α)} (h : Ascending rows) :
    Ascending (rows.filterMap fun (k, v) => (pick v).map (k, ·)) := by
  refine List.Pairwise.filterMap _ (fun a b hab => ?_) h
  intro a' ha' b' hb'
  obtain ⟨u, -, rfl⟩ := Option.map_eq_some_iff.1 ha'
  obtain ⟨v, -, rfl⟩ := Option.map_eq_some_iff.1 hb'
  exact hab

/-- Merging keeps rows in order. -/
theorem ascending_mergeRows (pick : Side α → Option α) {left right : List (String × α)}
    (hleft : Ascending left) (hright : Ascending right) :
    Ascending (mergeRows pick left right) := by
  induction left, right using mergeRows.induct with
  | case1 right =>
    rw [mergeRows]
    exact ascending_filterMap (pick ∘ Side.right) hright
  | case2 left hne =>
    rw [mergeRows.eq_2 pick left hne]
    exact ascending_filterMap (pick ∘ Side.left) hleft
  | case3 j u left k v right hlt ih =>
    obtain ⟨hj, hleft⟩ := List.pairwise_cons.1 hleft
    rw [mergeRows, if_pos hlt]
    refine ascending_append (ih hleft hright) (lt_of_mem_mergeRows hj fun row hrow => ?_)
    rcases List.mem_cons.1 hrow with rfl | hrow
    · exact hlt
    · exact String.lt_trans hlt ((List.pairwise_cons.1 hright).1 row hrow)
  | case4 j u left k v right hge hlt ih =>
    obtain ⟨hk, hright⟩ := List.pairwise_cons.1 hright
    rw [mergeRows, if_neg hge, if_pos hlt]
    refine ascending_append (ih hleft hright) (lt_of_mem_mergeRows (fun row hrow => ?_) hk)
    rcases List.mem_cons.1 hrow with rfl | hrow
    · exact hlt
    · exact String.lt_trans hlt ((List.pairwise_cons.1 hleft).1 row hrow)
  | case5 j u left k v right hge hle ih =>
    obtain ⟨hj, hleft⟩ := List.pairwise_cons.1 hleft
    obtain ⟨hk, hright⟩ := List.pairwise_cons.1 hright
    have hjk : j = k := String.le_antisymm (String.not_lt.1 hle) (String.not_lt.1 hge)
    rw [mergeRows, if_neg hge, if_neg hle]
    exact ascending_append (ih hleft hright) (lt_of_mem_mergeRows hj (hjk ▸ hk))

/-- Entries made key by key from two sides. -/
def mergeWith (pick : Side α → Option α) (left right : Entries α) : Entries α :=
  ⟨mergeRows pick left.toList right.toList,
    ascending_mergeRows pick left.ascending right.ascending⟩

/-- Every key of either side; a key of both keeps the right value. -/
def union (left right : Entries α) : Entries α :=
  mergeWith (fun
    | .left v => some v
    | .right v => some v
    | .both _ v => some v) left right

/-- The entries of the left side whose keys the right side lacks. -/
def difference (left right : Entries α) : Entries α :=
  mergeWith (fun
    | .left v => some v
    | .right _ => none
    | .both _ _ => none) left right

/-- The keys of both sides, with the right values. -/
def intersection (left right : Entries α) : Entries α :=
  mergeWith (fun
    | .left _ => none
    | .right _ => none
    | .both _ v => some v) left right

/-! ## Laws of lookup -/

@[simp] theorem get?_empty (key : String) : (empty : Entries α).get? key = none := rfl

/-- What is placed under a key is found there. -/
theorem lookup_place_self (key : String) (value : α) (rows : List (String × α)) :
    (place key value rows).lookup key = some value := by
  induction rows with
  | nil => simp [place]
  | cons row rest ih =>
    obtain ⟨k, v⟩ := row
    unfold place
    split
    · simp
    · split
      · rename_i h
        have hne : (key == k) = false := by
          simp only [beq_eq_false_iff_ne, ne_eq]
          rintro rfl
          exact String.lt_irrefl _ h
        simp [List.lookup_cons, hne, ih]
      · simp

/-- Placing an entry leaves the other keys alone. -/
theorem lookup_place_of_ne {key other : String} (value : α) (rows : List (String × α))
    (hne : other ≠ key) : (place key value rows).lookup other = rows.lookup other := by
  have hb : (other == key) = false := by simpa using hne
  induction rows with
  | nil => simp [place, List.lookup_cons, hb]
  | cons row rest ih =>
    obtain ⟨k, v⟩ := row
    unfold place
    split
    · simp [List.lookup_cons, hb]
    · split
      · simp [List.lookup_cons, ih]
      · rename_i h₁ h₂
        have hk : k = key := String.le_antisymm (String.not_lt.mp h₁) (String.not_lt.mp h₂)
        subst hk
        simp [List.lookup_cons, hb]

/-- After an insertion its key holds the value and every other key what it held. -/
theorem get?_insert (e : Entries α) (key other : String) (value : α) :
    (e.insert key value).get? other = if other = key then some value else e.get? other := by
  by_cases h : other = key
  · subst h
    simp [get?, insert, lookup_place_self]
  · simp [get?, insert, lookup_place_of_ne value e.toList h, h]

/-- After a removal its key holds nothing and every other key what it held. -/
theorem get?_erase (e : Entries α) (key other : String) :
    (e.erase key).get? other = if other = key then none else e.get? other := by
  simp only [get?, erase]
  induction e.toList with
  | nil => simp
  | cons row rest ih =>
    obtain ⟨k, v⟩ := row
    by_cases hk : k = key
    · subst hk
      rw [List.filter_cons_of_neg (by simp), ih]
      by_cases ho : other = k
      · simp [ho]
      · have hb : (other == k) = false := by simpa using ho
        simp [List.lookup_cons, ho, hb]
    · rw [List.filter_cons_of_pos (by simpa using hk)]
      by_cases ho : other = k
      · subst ho
        simp [hk]
      · have hb : (other == k) = false := by simpa using ho
        simp [List.lookup_cons, hb, ih]

/-- What is found under a key is one of the entries. -/
theorem mem_of_get? {e : Entries α} {key : String} {value : α} (h : e.get? key = some value) :
    (key, value) ∈ e.toList := by
  obtain ⟨before, after, heq, -⟩ := List.lookup_eq_some_iff.1 h
  rw [heq]
  exact List.mem_append_right _ List.mem_cons_self

/-! ## Laws of keys -/

theorem pairwise_keys (e : Entries α) : e.keys.Pairwise (· < ·) :=
  List.pairwise_map.2 e.ascending

theorem contains_iff_mem_keys {e : Entries α} {key : String} :
    e.contains key = true ↔ key ∈ e.keys := by
  rw [contains, get?, List.lookup_isSome_iff, keys, List.mem_map]
  exact exists_congr fun entry => and_congr_right fun _ => beq_iff_eq.trans eq_comm

/-- In a row in order, the first of the keys with a property is the least of them. -/
theorem le_of_find? {rows : List String} (h : rows.Pairwise (· < ·)) {p : String → Bool}
    {first : String} (hfirst : rows.find? p = some first) :
    ∀ key ∈ rows, p key = true → first ≤ key := by
  intro key hkey hp
  obtain ⟨-, before, after, rfl, hbefore⟩ := List.find?_eq_some_iff_append.1 hfirst
  rcases List.mem_append.1 hkey with hkey | hkey
  · have hnot := hbefore key hkey
    rw [hp] at hnot
    cases hnot
  · have hafter := (List.pairwise_cons.1 (List.pairwise_append.1 h).2.1).1
    rcases List.mem_cons.1 hkey with rfl | hkey
    · exact String.le_refl _
    · exact String.not_lt.1 fun hlt => String.lt_irrefl _ (String.lt_trans hlt (hafter key hkey))

theorem firstKey?_eq_find? (e : Entries α) : e.firstKey? = e.keys.find? fun _ => true := by
  rw [firstKey?]
  cases e.keys with
  | nil => rfl
  | cons key rest => rfl

theorem lt_of_keyAfter? {e : Entries α} {key next : String} (h : e.keyAfter? key = some next) :
    key < next :=
  of_decide_eq_true (List.find?_some (p := fun k => decide (key < k)) h)

end Entries

end MacroMachine
