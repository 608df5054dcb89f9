import Mathlib.Data.List.Forall2
import MacroMachine.Machine.Elements

/-!
# Likeness up to the names of containers

A container is made under the next free name, so what else goes on in the world decides how the
containers of a macro are called.  Two runs of one macro can therefore agree up to a renaming only.
The renaming is a relation (`Pairing`): it says which container of one store stands for which
container of the other.

*Values and stores.*  Values are alike if they name paired containers and agree in all else
(`Value.Alike`).  Rows of slots and entries of containers are compared one by one, and what an
operation makes of alike rows is alike again.  Paired containers hold alike entries to any depth, so
they have one text at every depth (`Pairing.Matches.describeEntriesTo_eq`).
-/

namespace MacroMachine

/-! ## Slots one by one -/

section Slotwise

variable {α β : Type} {rel : α → β → Prop}

/-- Two rows of slots hold related values, slot by slot. -/
def Slotwise (rel : α → β → Prop) (xs : Array α) (ys : Array β) : Prop :=
  List.Forall₂ rel xs.toList ys.toList

/-- Slots at the same place are related, or there are none. -/
theorem forall₂_getElem? {xs : List α} {ys : List β} (h : List.Forall₂ rel xs ys) (i : Nat) :
    Option.Rel rel xs[i]? ys[i]? := by
  induction h generalizing i with
  | nil => exact .none
  | cons hhead _ ih =>
    cases i with
    | zero => exact .some hhead
    | succ i => exact ih i

theorem forall₂_set {xs : List α} {ys : List β} (h : List.Forall₂ rel xs ys) (i : Nat) {a : α}
    {b : β} (hab : rel a b) : List.Forall₂ rel (xs.set i a) (ys.set i b) := by
  induction h generalizing i with
  | nil => exact .nil
  | cons hhead htail ih =>
    cases i with
    | zero => exact .cons hab htail
    | succ i => exact .cons hhead (ih i)

namespace Slotwise

variable {xs : Array α} {ys : Array β}

theorem mono {rel' : α → β → Prop} (h : Slotwise rel xs ys) (hrel : ∀ a b, rel a b → rel' a b) :
    Slotwise rel' xs ys :=
  List.Forall₂.imp hrel h

theorem size_eq (h : Slotwise rel xs ys) : ys.size = xs.size :=
  h.length_eq.symm

/-- The same of arrays. -/
theorem slot (h : Slotwise rel xs ys) (i : Nat) : Option.Rel rel xs[i]? ys[i]? := by
  rw [← Array.getElem?_toList, ← Array.getElem?_toList]
  exact forall₂_getElem? h i

theorem push (h : Slotwise rel xs ys) {a : α} {b : β} (hab : rel a b) :
    Slotwise rel (xs.push a) (ys.push b) := by
  rw [Slotwise, Array.toList_push, Array.toList_push]
  exact List.rel_append h (.cons hab .nil)

theorem append {xs' : Array α} {ys' : Array β} (h : Slotwise rel xs ys)
    (h' : Slotwise rel xs' ys') : Slotwise rel (xs ++ xs') (ys ++ ys') := by
  rw [Slotwise, Array.toList_append, Array.toList_append]
  exact List.rel_append h h'

theorem extract (h : Slotwise rel xs ys) (i j : Nat) :
    Slotwise rel (xs.extract i j) (ys.extract i j) := by
  rw [Slotwise, Array.toList_extract, Array.toList_extract, List.extract_eq_take_drop,
    List.extract_eq_take_drop]
  exact List.forall₂_take _ (List.forall₂_drop _ h)

theorem pop (h : Slotwise rel xs ys) : Slotwise rel xs.pop ys.pop := by
  rw [Slotwise, Array.toList_pop, Array.toList_pop, List.dropLast_eq_take, List.dropLast_eq_take,
    ← h.length_eq]
  exact List.forall₂_take _ h

/-- A slot is replaced on both sides. -/
theorem setIfInBounds (h : Slotwise rel xs ys) (i : Nat) {a : α} {b : β} (hab : rel a b) :
    Slotwise rel (xs.setIfInBounds i a) (ys.setIfInBounds i b) := by
  rw [Slotwise, Array.toList_setIfInBounds, Array.toList_setIfInBounds]
  exact forall₂_set h i hab

end Slotwise

end Slotwise

/-! ## Entries one by one -/

section Entries

variable {α β : Type} {rel : α → β → Prop}

/-- Two rows hold related values under the same keys. -/
def RowsAlike (rel : α → β → Prop) : List (String × α) → List (String × β) → Prop :=
  List.Forall₂ fun a b => a.1 = b.1 ∧ rel a.2 b.2

/-- Two sides hold related values. -/
inductive Side.Alike (rel : α → β → Prop) : Side α → Side β → Prop where
  | left {a : α} {b : β} (h : rel a b) : Side.Alike rel (.left a) (.left b)
  | right {a : α} {b : β} (h : rel a b) : Side.Alike rel (.right a) (.right b)
  | both {a a' : α} {b b' : β} (h : rel a b) (h' : rel a' b') :
    Side.Alike rel (.both a a') (.both b b')

namespace RowsAlike

/-- What a function sees alike in the rows it makes the same of them. -/
theorem map_eq {γ : Type} {f : String × α → γ} {g : String × β → γ}
    (hfg : ∀ key {a b}, rel a b → g (key, b) = f (key, a)) {rows : List (String × α)}
    {rows' : List (String × β)} (h : RowsAlike rel rows rows') : rows'.map g = rows.map f := by
  induction h with
  | nil => rfl
  | @cons row row' rest rest' hrow _ ih =>
    obtain ⟨k, v⟩ := row
    obtain ⟨k', v'⟩ := row'
    obtain ⟨rfl, hv⟩ : k = k' ∧ rel v v' := hrow
    rw [List.map_cons, List.map_cons, hfg k hv, ih]

/-- A related value is placed under the same key, so the order of the keys stays the same. -/
theorem place {key : String} {a : α} {b : β} (hab : rel a b) {rows : List (String × α)}
    {rows' : List (String × β)} (h : RowsAlike rel rows rows') :
    RowsAlike rel (Entries.place key a rows) (Entries.place key b rows') := by
  induction h with
  | nil => exact .cons ⟨rfl, hab⟩ .nil
  | @cons row row' rest rest' hrow hrest ih =>
    obtain ⟨k, v⟩ := row
    obtain ⟨k', v'⟩ := row'
    obtain ⟨rfl, hv⟩ : k = k' ∧ rel v v' := hrow
    simp only [Entries.place]
    by_cases hlt : key < k
    · rw [if_pos hlt, if_pos hlt]
      exact .cons ⟨rfl, hab⟩ (.cons ⟨rfl, hv⟩ hrest)
    · rw [if_neg hlt, if_neg hlt]
      by_cases hgt : k < key
      · rw [if_pos hgt, if_pos hgt]
        exact .cons ⟨rfl, hv⟩ ih
      · rw [if_neg hgt, if_neg hgt]
        exact .cons ⟨rfl, hab⟩ hrest

/-- What is found under a key is related, or nothing is found on either side. -/
theorem lookup {rows : List (String × α)} {rows' : List (String × β)} (h : RowsAlike rel rows rows')
    (key : String) : Option.Rel rel (rows.lookup key) (rows'.lookup key) := by
  induction h with
  | nil => exact .none
  | @cons row row' rest rest' hrow hrest ih =>
    obtain ⟨k, v⟩ := row
    obtain ⟨k', v'⟩ := row'
    obtain ⟨rfl, hv⟩ : k = k' ∧ rel v v' := hrow
    rw [List.lookup_cons, List.lookup_cons]
    cases key == k with
    | true => exact .some hv
    | false => exact ih

/-- What is picked from alike values is put under the same key. -/
theorem picked {key : String} {a : Option α} {b : Option β} (h : Option.Rel rel a b) :
    Option.Rel (fun a b => a.1 = b.1 ∧ rel a.2 b.2) (a.map (key, ·)) (b.map (key, ·)) := by
  cases h with
  | some hab => exact .some ⟨rfl, hab⟩
  | none => exact .none

theorem ofOption {a : Option (String × α)} {b : Option (String × β)}
    (h : Option.Rel (fun a b => a.1 = b.1 ∧ rel a.2 b.2) a b) :
    RowsAlike rel a.toList b.toList := by
  cases h with
  | some hab => exact .cons hab .nil
  | none => exact .nil

/-- Choosing by related values chooses the same keys. -/
theorem filterMap {pick : α → Option α} {pick' : β → Option β}
    (hpick : ∀ {a b}, rel a b → Option.Rel rel (pick a) (pick' b)) {rows : List (String × α)}
    {rows' : List (String × β)} (h : RowsAlike rel rows rows') :
    RowsAlike rel (rows.filterMap fun (k, v) => (pick v).map (k, ·))
      (rows'.filterMap fun (k, v) => (pick' v).map (k, ·)) := by
  refine List.rel_filterMap (fun row row' hrow => ?_) h
  obtain ⟨k, v⟩ := row
  obtain ⟨k', v'⟩ := row'
  obtain ⟨rfl, hv⟩ : k = k' ∧ rel v v' := hrow
  exact picked (hpick hv)

/-- Merging alike rows takes the same turn at every key. -/
theorem mergeRows {pick : Side α → Option α} {pick' : Side β → Option β}
    (hpick : ∀ {a b}, Side.Alike rel a b → Option.Rel rel (pick a) (pick' b))
    {left right : List (String × α)} {left' right' : List (String × β)}
    (hleft : RowsAlike rel left left') (hright : RowsAlike rel right right') :
    RowsAlike rel (Entries.mergeRows pick left right) (Entries.mergeRows pick' left' right') := by
  induction left, right using Entries.mergeRows.induct generalizing left' right' with
  | case1 right =>
    cases hleft
    rw [Entries.mergeRows, Entries.mergeRows]
    exact filterMap (fun hab => hpick (.right hab)) hright
  | case2 left hne =>
    cases hright
    have hne' : left' = [] → False := by
      rintro rfl
      cases hleft
      exact hne rfl
    rw [Entries.mergeRows.eq_2 pick left hne, Entries.mergeRows.eq_2 pick' left' hne']
    exact filterMap (fun hab => hpick (.left hab)) hleft
  | case3 j u left k v right hlt ih =>
    obtain ⟨⟨j', u'⟩, left', ⟨rfl, hu⟩, hl, rfl⟩ := List.forall₂_cons_left_iff.1 hleft
    obtain ⟨⟨k', v'⟩, right', ⟨rfl, hv⟩, hr, rfl⟩ := List.forall₂_cons_left_iff.1 hright
    rw [Entries.mergeRows, Entries.mergeRows, if_pos hlt, if_pos hlt]
    exact List.rel_append (ofOption (picked (hpick (.left hu)))) (ih hl hright)
  | case4 j u left k v right hge hlt ih =>
    obtain ⟨⟨j', u'⟩, left', ⟨rfl, hu⟩, hl, rfl⟩ := List.forall₂_cons_left_iff.1 hleft
    obtain ⟨⟨k', v'⟩, right', ⟨rfl, hv⟩, hr, rfl⟩ := List.forall₂_cons_left_iff.1 hright
    rw [Entries.mergeRows, Entries.mergeRows, if_neg hge, if_neg hge, if_pos hlt, if_pos hlt]
    exact List.rel_append (ofOption (picked (hpick (.right hv)))) (ih hleft hr)
  | case5 j u left k v right hge hle ih =>
    obtain ⟨⟨j', u'⟩, left', ⟨rfl, hu⟩, hl, rfl⟩ := List.forall₂_cons_left_iff.1 hleft
    obtain ⟨⟨k', v'⟩, right', ⟨rfl, hv⟩, hr, rfl⟩ := List.forall₂_cons_left_iff.1 hright
    rw [Entries.mergeRows, Entries.mergeRows, if_neg hge, if_neg hge, if_neg hle, if_neg hle]
    exact List.rel_append (ofOption (picked (hpick (.both hu hv)))) (ih hl hr)

end RowsAlike

/-- Two containers hold related values under the same keys. -/
def Entries.Alike (rel : α → β → Prop) (e : Entries α) (e' : Entries β) : Prop :=
  RowsAlike rel e.toList e'.toList

namespace Entries.Alike

variable {e : Entries α} {e' : Entries β}

theorem mono {rel' : α → β → Prop} (h : e.Alike rel e') (hrel : ∀ a b, rel a b → rel' a b) :
    e.Alike rel' e' :=
  List.Forall₂.imp (fun _ _ hrow => ⟨hrow.1, hrel _ _ hrow.2⟩) h

theorem empty : Entries.Alike rel (Entries.empty : Entries α) (Entries.empty : Entries β) :=
  .nil

/-- Alike entries have the same keys in the same order. -/
theorem keys_eq (h : e.Alike rel e') : e'.keys = e.keys :=
  RowsAlike.map_eq (fun _ _ _ _ => rfl) h

theorem size_eq (h : e.Alike rel e') : e'.size = e.size :=
  h.length_eq.symm

/-- They have related values under them. -/
theorem get? (h : e.Alike rel e') (key : String) : Option.Rel rel (e.get? key) (e'.get? key) :=
  RowsAlike.lookup h key

theorem contains_eq (h : e.Alike rel e') (key : String) : e'.contains key = e.contains key := by
  have hfound := h.get? key
  rw [Entries.contains, Entries.contains]
  generalize e.get? key = a, e'.get? key = b at hfound
  cases hfound <;> rfl

theorem firstKey?_eq (h : e.Alike rel e') : e'.firstKey? = e.firstKey? := by
  rw [Entries.firstKey?, Entries.firstKey?, h.keys_eq]

theorem keyAfter?_eq (h : e.Alike rel e') (key : String) : e'.keyAfter? key = e.keyAfter? key := by
  rw [Entries.keyAfter?, Entries.keyAfter?, h.keys_eq]

/-- Insertion keeps entries alike. -/
theorem insert (h : e.Alike rel e') (key : String) {a : α} {b : β} (hab : rel a b) :
    (e.insert key a).Alike rel (e'.insert key b) :=
  RowsAlike.place hab h

theorem erase (h : e.Alike rel e') (key : String) : (e.erase key).Alike rel (e'.erase key) := by
  refine List.rel_filter (fun row row' hrow => ?_) h
  simp only [hrow.1]

/-- Entries that are listed alike are alike, also where keys are repeated. -/
theorem ofList {rows : List (String × α)} {rows' : List (String × β)}
    (h : RowsAlike rel rows rows') : (Entries.ofList rows).Alike rel (Entries.ofList rows') := by
  refine List.rel_foldl (P := Entries.Alike rel) (fun e e' he row row' hrow => ?_) .empty h
  rw [hrow.1]
  exact he.insert _ hrow.2

variable {left right : Entries α} {left' right' : Entries β}

/-- The operators on arrays keep entries alike, since they go by the keys. -/
theorem union (hleft : left.Alike rel left') (hright : right.Alike rel right') :
    (left.union right).Alike rel (left'.union right') := by
  refine RowsAlike.mergeRows (fun hside => ?_) hleft hright
  cases hside with
  | left h => exact .some h
  | right h => exact .some h
  | both _ h => exact .some h

theorem difference (hleft : left.Alike rel left') (hright : right.Alike rel right') :
    (left.difference right).Alike rel (left'.difference right') := by
  refine RowsAlike.mergeRows (fun hside => ?_) hleft hright
  cases hside with
  | left h => exact .some h
  | right _ => exact .none
  | both _ _ => exact .none

theorem intersection (hleft : left.Alike rel left') (hright : right.Alike rel right') :
    (left.intersection right).Alike rel (left'.intersection right') := by
  refine RowsAlike.mergeRows (fun hside => ?_) hleft hright
  cases hside with
  | left _ => exact .none
  | right _ => exact .none
  | both _ h => exact .some h

end Entries.Alike

end Entries

/-! ## Values -/

/-- Which containers of one store stand for which containers of another. -/
abbrev Pairing := ArrayRef → ArrayRef → Prop

/-- The container that a value names. -/
def Value.container? : Value → Option ArrayRef
  | .array ref => some ref
  | .iterator it => some it.array
  | _ => none

/-- Two values name paired containers and agree in all else. -/
inductive Value.Alike (pairs : Pairing) : Value → Value → Prop where
  | array {ref ref' : ArrayRef} (h : pairs ref ref') : Value.Alike pairs (.array ref) (.array ref')
  | iterator {ref ref' : ArrayRef} {cursor : Option String} (h : pairs ref ref') :
    Value.Alike pairs (.iterator ⟨ref, cursor⟩) (.iterator ⟨ref', cursor⟩)
  | other {v : Value} (h : v.container? = none) : Value.Alike pairs v v

namespace Value.Alike

variable {pairs pairs' : Pairing} {v v' u u' : Value}

theorem mono (h : v.Alike pairs v') (hpairs : ∀ {ref ref'}, pairs ref ref' → pairs' ref ref') :
    v.Alike pairs' v' := by
  cases h with
  | array h => exact .array (hpairs h)
  | iterator h => exact .iterator (hpairs h)
  | other h => exact .other h

/-- Alike values are of the same kind. -/
theorem kind_eq (h : v.Alike pairs v') : v'.kind = v.kind := by
  cases h <;> rfl

theorem isUnset_eq (h : v.Alike pairs v') : v'.isUnset = v.isUnset := by
  rw [isUnset, isUnset, h.kind_eq]

theorem isArray_eq (h : v.Alike pairs v') : v'.isArray = v.isArray := by
  rw [isArray, isArray, h.kind_eq]

theorem toInt_eq (h : v.Alike pairs v') : v'.toInt = v.toInt := by
  cases h <;> rfl

theorem toText_eq (h : v.Alike pairs v') : v'.toText = v.toText := by
  cases h <;> rfl

theorem keyPart_eq (h : v.Alike pairs v') : v'.keyPart = v.keyPart := by
  cases h <;> rfl

/-- Comparing alike values has the same answer. -/
theorem looselyEqual_eq (h : v.Alike pairs v') (hu : u.Alike pairs u') :
    v'.looselyEqual u' = v.looselyEqual u := by
  cases h with
  | array => rfl
  | iterator => rfl
  | other hv =>
    cases hu with
    | other => rfl
    | _ => cases v <;> rfl

/-- They have the same text if paired containers have. -/
theorem describeWith_eq (h : v.Alike pairs v') {text text' : ArrayRef → String}
    (htext : ∀ {ref ref'}, pairs ref ref' → text' ref' = text ref) :
    v'.describeWith text' = v.describeWith text := by
  cases h with
  | array h => exact congrArg (fun t => "Array(" ++ t ++ ")") (htext h)
  | iterator => exact congrArg (fun t => "ArrayIter(" ++ Quoted.quote? t ++ ")") rfl
  | other h =>
    cases v with
    | array => cases h
    | address a => cases a <;> rfl
    | frame fp => cases fp <;> rfl
    | _ => rfl

/-- Indices that are alike make one key. -/
theorem keyOf_eq {parts parts' : List Value} (h : List.Forall₂ (Value.Alike pairs) parts parts') :
    keyOf parts' = keyOf parts := by
  have hparts : parts'.mapM Value.keyPart = parts.mapM Value.keyPart := by
    induction h with
    | nil => rfl
    | cons hhead _ ih => rw [List.mapM_cons, List.mapM_cons, hhead.keyPart_eq, ih]
  rw [keyOf, keyOf, hparts]

end Value.Alike

/-! ## Stores -/

/-- The pairing is one to one, and paired containers hold alike entries. -/
structure Pairing.Matches (pairs : Pairing) (s s' : Store) : Prop where
  left_unique : ∀ {ref other ref'}, pairs ref ref' → pairs other ref' → ref = other
  right_unique : ∀ {ref ref' other}, pairs ref ref' → pairs ref other → ref' = other
  entries : ∀ {ref ref'}, pairs ref ref' →
    (s.entries ref).Alike (Value.Alike pairs) (s'.entries ref')

/-- Paired containers have the same text, to any depth. -/
theorem Pairing.Matches.describeEntriesTo_eq {pairs : Pairing} {s s' : Store}
    (h : pairs.Matches s s') (depth : Nat) {ref ref' : ArrayRef} (href : pairs ref ref') :
    s'.describeEntriesTo depth ref' = s.describeEntriesTo depth ref := by
  induction depth generalizing ref ref' with
  | zero => rfl
  | succ depth ih =>
    simp only [Store.describeEntriesTo]
    rw [RowsAlike.map_eq (fun key _ _ hv => ?_) (h.entries href)]
    rw [hv.describeWith_eq ih]

end MacroMachine
