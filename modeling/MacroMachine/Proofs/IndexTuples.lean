import Mathlib.Data.List.Forall2
import MacroMachine.Proofs.NumeralGrammar
import MacroMachine.Proofs.Operators

/-!
# Index tuples

An array with an index of several parts is an array whose keys are made of several texts.  This
module shows that the keys can be taken for the tuples themselves: two tuples make the same key only
if they have the same texts, part by part, as long as no part contains the separator.

*Texts.*  Numbers count as their decimal texts.  Different numbers have different ones, and none of
them contains the separator, so a key can be cut at the separators to find the texts again.

*Elements.*  Storing an element and removing one take the array and the index off the stack and
change what is found under one key.  Every tuple that makes this key sees the change, through every
name of the array, and no other tuple does.
-/

namespace MacroMachine

/-! ## The parts of an index -/

namespace Value

/-- Numbers and texts can be parts of an index. -/
def isIndex : Value → Bool
  | int _ | text _ => true
  | _ => false

/-- A number, or a text without the separator of keys. -/
inductive PlainIndex : Value → Prop where
  | int (n : Int32) : PlainIndex (.int n)
  | text {s : String} (h : '\x1c' ∉ s.toList) : PlainIndex (.text s)

/-- Parts of an index that mean the same: equal ones, and a number and its decimal text. -/
inductive SameText : Value → Value → Prop where
  | int (n : Int32) : SameText (.int n) (.int n)
  | text (s : String) : SameText (.text s) (.text s)
  | numeral (n : Int32) : SameText (.int n) (.text (toString n.toInt))
  | number (n : Int32) : SameText (.text (toString n.toInt)) (.int n)

/-- The text of a part of an index. -/
def partText : Value → String
  | int n => Numeral.render n
  | text s => s
  | _ => ""

variable {v w : Value}

theorem PlainIndex.isIndex (h : v.PlainIndex) : v.isIndex = true := by
  cases h with
  | int n => rfl
  | text h => rfl

theorem keyPart_of_isIndex (h : v.isIndex = true) : v.keyPart = .ok v.partText := by
  cases v with
  | int n => rfl
  | text s => rfl
  | _ => cases h

theorem partText_eq_iff (hv : v.isIndex = true) (hw : w.isIndex = true) :
    v.partText = w.partText ↔ v.SameText w := by
  constructor
  · intro h
    cases v with
    | int n =>
      cases w with
      | int m =>
        cases Numeral.render_injective h
        exact .int n
      | text s =>
        cases h
        exact .numeral n
      | _ => cases hw
    | text s =>
      cases w with
      | int m =>
        cases h
        exact .number m
      | text r =>
        cases h
        exact .text s
      | _ => cases hw
    | _ => cases hv
  · intro h
    cases h with
    | int n | text s | numeral n | number n => rfl

theorem PlainIndex.separator_notMem (h : v.PlainIndex) : '\x1c' ∉ v.partText.toList := by
  cases h with
  | text h => exact h
  | int n =>
    obtain ⟨sign, digits, hspells, -⟩ := Numeral.spells_render n
    have hblank : ∀ c ∈ Numeral.blankChars, c ≠ '\x1c' :=
      Numeral.forall_mem_blankChars.2 (by decide)
    have hdigit : ∀ c ∈ Numeral.decimalDigits, c ≠ '\x1c' :=
      Numeral.forall_mem_decimalDigits.2 (by decide)
    intro hmem
    exact hspells.all hblank hdigit (by decide) (by decide) _ hmem rfl

end Value

/-! ## Keys -/

/-- At least one part, and no part contains the separator. -/
structure IndexTuple (parts : List Value) : Prop where
  nonempty : parts ≠ []
  plain : ∀ v ∈ parts, v.PlainIndex

variable {parts ks js : List Value}

theorem keyOf_of_isIndex (h : ∀ v ∈ parts, v.isIndex = true) :
    keyOf parts = .ok (keySeparator.intercalate (parts.map Value.partText)) := by
  have hparts : parts.mapM Value.keyPart = .ok (parts.map Value.partText) := by
    induction parts with
    | nil => rfl
    | cons v rest ih =>
      obtain ⟨hv, hrest⟩ := List.forall_mem_cons.1 h
      rw [List.mapM_cons, Value.keyPart_of_isIndex hv, ih hrest]
      rfl
  rw [keyOf, hparts]
  rfl

theorem forall₂_sameText_iff (hks : ∀ v ∈ ks, v.isIndex = true) (hjs : ∀ v ∈ js, v.isIndex = true) :
    ks.map Value.partText = js.map Value.partText ↔ List.Forall₂ Value.SameText ks js := by
  induction ks generalizing js with
  | nil => simp [eq_comm]
  | cons v ks ih =>
    obtain ⟨hv, hks⟩ := List.forall_mem_cons.1 hks
    cases js with
    | nil => simp
    | cons w js =>
      obtain ⟨hw, hjs⟩ := List.forall_mem_cons.1 hjs
      rw [List.map_cons, List.map_cons, List.cons.injEq, List.forall₂_cons,
        Value.partText_eq_iff hv hw, ih hks hjs]

/-- Texts without the separator are found again between the separators. -/
theorem IndexTuple.splitOn_key (h : IndexTuple parts) :
    (keySeparator.intercalate (parts.map Value.partText)).toList.splitOn '\x1c' =
      (parts.map Value.partText).map String.toList := by
  have hseparator : keySeparator.toList = ['\x1c'] := rfl
  rw [String.toList_intercalate, hseparator, List.splitOn_intercalate]
  · simpa using fun v hv => (h.plain v hv).separator_notMem
  · simpa using h.nonempty

/-- Two tuples make the same key if they have the same texts, part by part. -/
theorem IndexTuple.keyOf_eq_iff (hks : IndexTuple ks) (hjs : IndexTuple js) :
    keyOf ks = keyOf js ↔ List.Forall₂ Value.SameText ks js := by
  have hindex : ∀ v ∈ ks, v.isIndex = true := fun v hv => (hks.plain v hv).isIndex
  have hindex' : ∀ v ∈ js, v.isIndex = true := fun v hv => (hjs.plain v hv).isIndex
  rw [← forall₂_sameText_iff hindex hindex', keyOf_of_isIndex hindex, keyOf_of_isIndex hindex',
    Except.ok.injEq]
  constructor
  · intro h
    have hsplit := hks.splitOn_key
    rw [h, hjs.splitOn_key] at hsplit
    exact (List.map_injective_iff.2 (fun _ _ => String.toList_inj.1) hsplit).symm
  · intro h
    rw [h]

/-! ## Reading an element -/

/-- What is found under a key. -/
def elementOr (key : String) : Option Value → Except Fault Value
  | some v => .ok v
  | none => .error (.missingKey key)

/-- An index applied to an array gives this value, or fails like this. -/
def Reads (host : Host) (n : Int64) (ref : ArrayRef) (parts : List Value) (store : Store)
    (answer : Except Fault Value) : Prop :=
  Evaluates host .element [.immediate n] (.array ref :: parts) store
    (answer.map fun v => ([v], store))

variable {host : Host} {n : Int64} {ref : ArrayRef} {store : Store} {key : String} {v : Value}

theorem reads (host : Host) (ref : ArrayRef) (store : Store) (hne : parts ≠ [])
    (hn : n.toInt = parts.length) (hkey : keyOf parts = .ok key) :
    Reads host n ref parts store (elementOr key ((store.entries ref).get? key)) := by
  refine .of_count rfl (fun _ => rfl) hn ?_
  have hdimensions : parts.length ≠ 0 := by simpa using hne
  simp only [if_neg hdimensions, Execution.popElement, bind_assoc]
  refine .popKey [.array ref] hkey (.popArray [] ?_)
  cases hv : (store.entries ref).get? key with
  | some v => exact .elementAt hv (.deliver v)
  | none => exact .elementAt_error hv

/-! ## Storing and removing an element -/

theorem evaluates_setElement (host : Host) (ref : ArrayRef) (v : Value) (store : Store)
    (hne : parts ≠ []) (hn : n.toInt = parts.length) (hkey : keyOf parts = .ok key) :
    Evaluates host .setElement [.immediate n] (.array ref :: parts ++ [v]) store
      (.ok ([], (store.copyForAssignment v).2.insert ref key (store.copyForAssignment v).1)) := by
  refine .of_count rfl (fun _ => rfl) hn (.pop (.array ref :: parts) ?_)
  have hdimensions : parts.length ≠ 0 := by simpa using hne
  rw [if_neg hdimensions]
  exact .popKey [.array ref] hkey (.popArray [] (.withStore (.modifyStore .done)))

theorem evaluates_deleteElement (host : Host) (ref : ArrayRef) (store : Store) (hne : parts ≠ [])
    (hn : n.toInt = parts.length) (hkey : keyOf parts = .ok key) :
    Evaluates host .deleteElement [.immediate n] (.array ref :: parts) store
      (.ok ([], store.erase ref key)) := by
  refine .of_count rfl (fun _ => rfl) hn ?_
  have hdimensions : parts.length ≠ 0 := by simpa using hne
  simp only [if_neg hdimensions]
  exact .popKey [.array ref] hkey (.popArray [] (.modifyStore .done))

/-- A value as it is stored: an array is a new one with the same entries, any other value is the
value itself. -/
inductive Store.Copied (before after : Store) : Value → Value → Prop where
  | array {ref fresh : ArrayRef} (new : before.containers.size ≤ fresh.index)
      (entries : after.entries fresh = before.entries ref) :
      Copied before after (.array ref) (.array fresh)
  | plain {v : Value} (h : v.isArray = false) : Copied before after v v

/-- One container holds something else under one key, and all others hold what they held. -/
structure Store.AltersElement (before after : Store) (ref : ArrayRef) (key : String)
    (new : Option Value) : Prop where
  here : ∀ other, (after.entries ref).get? other =
    if other = key then new else (before.entries ref).get? other
  elsewhere : ∀ other : ArrayRef, other.index < before.containers.size → other ≠ ref →
    after.entries other = before.entries other

theorem Store.copied_insert (store : Store) (v : Value) {ref : ArrayRef} (key : String)
    (href : ref.index < store.containers.size) :
    store.Copied ((store.copyForAssignment v).2.insert ref key (store.copyForAssignment v).1) v
      (store.copyForAssignment v).1 := by
  cases v with
  | array source =>
    have hne : (store.copy source).1 ≠ ref := by
      rintro rfl
      exact Nat.lt_irrefl _ href
    exact .array (Nat.le_refl _)
      ((Store.entries_modify_of_ne _ _ hne).trans (Store.entries_alloc _ _))
  | _ => exact .plain rfl

theorem Store.altersElement_insert (store : Store) (v : Value) {ref : ArrayRef} (key : String)
    (href : ref.index < store.containers.size) :
    store.AltersElement
      ((store.copyForAssignment v).2.insert ref key (store.copyForAssignment v).1) ref key
      (some (store.copyForAssignment v).1) := by
  have hgrows := Store.Grows.copyForAssignment store v
  have href' := Nat.lt_of_lt_of_le href hgrows.size
  constructor
  · intro other
    rw [Store.insert, Store.entries_modify _ _ href', Entries.get?_insert,
      hgrows.entries ref href]
  · intro other hother hne
    rw [Store.insert, Store.entries_modify_of_ne _ _ hne, hgrows.entries other hother]

theorem Store.altersElement_erase (store : Store) {ref : ArrayRef} (key : String)
    (href : ref.index < store.containers.size) :
    store.AltersElement (store.erase ref key) ref key none := by
  constructor
  · intro other
    rw [Store.erase, Store.entries_modify _ _ href, Entries.get?_erase]
  · intro other _ hne
    rw [Store.erase, Store.entries_modify_of_ne _ _ hne]

/-! ## Arrays as maps on tuples -/

/-- Every index that means the same as `ks` now finds `new` in an array.  Any other index finds what
it found before, and so does every index in another array. -/
structure ChangesElement (host : Host) (before after : Store) (ref : ArrayRef) (ks : List Value)
    (new : Option Value) : Prop where
  same : ∀ (js : List Value) (m : Int64), IndexTuple js → m.toInt = js.length →
    List.Forall₂ Value.SameText ks js →
      ∃ key, keyOf js = .ok key ∧ Reads host m ref js after (elementOr key new)
  others : ∀ (other : ArrayRef) (js : List Value) (m : Int64),
    other.index < before.containers.size → IndexTuple js → m.toInt = js.length →
      (other = ref → ¬ List.Forall₂ Value.SameText ks js) →
        ∃ answer, Reads host m other js before answer ∧ Reads host m other js after answer

theorem IndexTuple.exists_key (h : IndexTuple parts) : ∃ key, keyOf parts = .ok key :=
  ⟨_, keyOf_of_isIndex fun v hv => (h.plain v hv).isIndex⟩

theorem Store.AltersElement.changesElement {after : Store} {new : Option Value} (host : Host)
    (h : store.AltersElement after ref key new) (hks : IndexTuple ks) (hkey : keyOf ks = .ok key) :
    ChangesElement host store after ref ks new := by
  constructor
  · intro js m hjs hm hsame
    have hkey' : keyOf js = .ok key := ((hks.keyOf_eq_iff hjs).2 hsame).symm.trans hkey
    have hreads := reads host ref after hjs.nonempty hm hkey'
    rw [h.here, if_pos rfl] at hreads
    exact ⟨key, hkey', hreads⟩
  · intro other js m hother hjs hm hnot
    obtain ⟨key', hkey'⟩ := hjs.exists_key
    have hentry : (after.entries other).get? key' = (store.entries other).get? key' := by
      by_cases href : other = ref
      · subst href
        have hne : key' ≠ key := by
          rintro rfl
          exact hnot rfl ((hks.keyOf_eq_iff hjs).1 (hkey.trans hkey'.symm))
        rw [h.here, if_neg hne]
      · rw [h.elsewhere other hother href]
    have hreads := reads host other after hjs.nonempty hm hkey'
    rw [hentry] at hreads
    exact ⟨_, reads host other store hjs.nonempty hm hkey', hreads⟩

/-- Indices make the same key exactly if they have the same texts, part by part.  To store a value
under an index, or to remove what is there, changes what is found under the indices that mean the
same, whatever the array is reached through, and nothing else; it takes the array, the index and the
value off the stack. -/
theorem index_tuples_address_elements (host : Host) :
    (∀ ks js, IndexTuple ks → IndexTuple js → (∃ key, keyOf ks = .ok key) ∧
      (keyOf ks = keyOf js ↔ List.Forall₂ Value.SameText ks js)) ∧
    (∀ (store : Store) (ref : ArrayRef) (ks : List Value) (n : Int64) (v : Value),
      ref.index < store.containers.size → IndexTuple ks → n.toInt = ks.length →
        ∃ after stored, Evaluates host .setElement [.immediate n] (.array ref :: ks ++ [v]) store
            (.ok ([], after)) ∧
          store.Copied after v stored ∧ ChangesElement host store after ref ks (some stored)) ∧
    ∀ (store : Store) (ref : ArrayRef) (ks : List Value) (n : Int64),
      ref.index < store.containers.size → IndexTuple ks → n.toInt = ks.length →
        ∃ after, Evaluates host .deleteElement [.immediate n] (.array ref :: ks) store
            (.ok ([], after)) ∧
          ChangesElement host store after ref ks none := by
  refine ⟨fun ks js hks hjs => ⟨hks.exists_key, hks.keyOf_eq_iff hjs⟩, ?_, ?_⟩
  · intro store ref ks n v href hks hn
    obtain ⟨key, hkey⟩ := hks.exists_key
    exact ⟨_, _, evaluates_setElement host ref v store hks.nonempty hn hkey,
      store.copied_insert v key href,
      (store.altersElement_insert v key href).changesElement host hks hkey⟩
  · intro store ref ks n href hks hn
    obtain ⟨key, hkey⟩ := hks.exists_key
    exact ⟨_, evaluates_deleteElement host ref store hks.nonempty hn hkey,
      (store.altersElement_erase key href).changesElement host hks hkey⟩

/-- An array with one element, under an index of two parts. -/
def Sample.grid : Store :=
  ⟨#[.ofList [("1\x1cx", .int 5)]]⟩

/-- An array becomes an element of itself.  What is found there is a copy of the array as it was. -/
theorem index_tuples_address_elements_of_self :
    keyOf [.int 1, .text "x"] = keyOf [.text "1", .text "x"] ∧
    (∃ after fresh, Evaluates Sample.host .setElement [.immediate 2]
        [.array ⟨0⟩, .int 1, .text "x", .array ⟨0⟩] Sample.grid (.ok ([], after)) ∧
      Reads Sample.host 2 ⟨0⟩ [.text "1", .text "x"] after (.ok (.array fresh)) ∧
      after.entries fresh = Sample.grid.entries ⟨0⟩) ∧
    ∃ after key, Evaluates Sample.host .deleteElement [.immediate 2]
        [.array ⟨0⟩, .int 1, .text "x"] Sample.grid (.ok ([], after)) ∧
      Reads Sample.host 2 ⟨0⟩ [.text "1", .text "x"] after (.error (.missingKey key)) := by
  have hx : Value.PlainIndex (.text "x") := .text (by decide)
  have hks : IndexTuple [.int 1, .text "x"] := ⟨nofun, by simpa using ⟨.int 1, hx⟩⟩
  have hjs : IndexTuple [.text "1", .text "x"] :=
    ⟨nofun, by simpa using ⟨.text (by decide), hx⟩⟩
  have hsame : List.Forall₂ Value.SameText [.int 1, .text "x"] [.text "1", .text "x"] :=
    .cons (.numeral 1) (.cons (.text "x") .nil)
  have href : (ArrayRef.mk 0).index < Sample.grid.containers.size := by decide
  obtain ⟨hkeys, hset, hdelete⟩ := index_tuples_address_elements Sample.host
  obtain ⟨after, stored, hstep, hcopied, hchange⟩ :=
    hset Sample.grid ⟨0⟩ _ 2 (.array ⟨0⟩) href hks rfl
  obtain ⟨after', hstep', hchange'⟩ := hdelete Sample.grid ⟨0⟩ _ 2 href hks rfl
  obtain ⟨_, -, hreads⟩ := hchange.same _ 2 hjs rfl hsame
  obtain ⟨key, -, hreads'⟩ := hchange'.same _ 2 hjs rfl hsame
  refine ⟨(hkeys _ _ hks hjs).2.2 hsame, ?_, after', key, hstep', hreads'⟩
  cases hcopied with
  | array _ hentries => exact ⟨after, _, hstep, hreads, hentries⟩
  | plain h => cases h

end MacroMachine
