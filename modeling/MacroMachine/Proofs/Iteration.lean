import MacroMachine.Machine.Elements
import MacroMachine.Proofs.ByteOrder

/-!
# Iteration over a changing array

An iterator names the key that it yields next, so it looks ahead of what it has yielded.  Meanwhile
anybody who has the array may insert, delete and clear.  This module says what an iterator yields
however such changes are interleaved with its steps.

*Walks.*  A walk is an iterator together with the store that it looks into and a record: what was
yielded, and every state that the store has been in.  A step of a walk changes the store or moves
the iterator on.  If the iterator refuses to move on, nothing changes, so that is no step.

*Invariant.*  What was yielded lies below the cursor, and a key that was never away was yielded or
is not below the cursor (`Walk.OnTrack`).
-/

namespace MacroMachine

/-- The store is changed: in some container a value is stored, a key or all keys are removed; or a
container is made. -/
inductive Store.Changes (s : Store) : Store → Prop where
  | insert (ref : ArrayRef) (key : String) (value : Value) : s.Changes (s.insert ref key value)
  | erase (ref : ArrayRef) (key : String) : s.Changes (s.erase ref key)
  | clear (ref : ArrayRef) : s.Changes (s.clear ref)
  | alloc (e : Entries Value) : s.Changes (s.alloc e).2

/-- No container is ever given up. -/
theorem Store.Changes.size_le {s t : Store} (h : s.Changes t) :
    s.containers.size ≤ t.containers.size := by
  cases h with
  | insert | erase | clear => simp [Store.insert, Store.erase, Store.clear, Store.modify]
  | alloc e => simp [Store.alloc]

/-! ## Answers -/

namespace Iterator

variable {it it' : Iterator} {s : Store} {key : String}

theorem next_eq_none : it.next s = .ok (none, it') ↔ it.cursor = none ∧ it' = it := by
  unfold next
  cases it.cursor with
  | none => simp [eq_comm]
  | some cursor => grind

/-- The key that is yielded is the cursor, and the cursor moves to the next key. -/
theorem next_eq_some : it.next s = .ok (some key, it') ↔
    it.cursor = some key ∧ (s.entries it.array).contains key = true ∧
      it' = { it with cursor := (s.entries it.array).keyAfter? key } := by
  unfold next
  cases it.cursor with
  | none => simp
  | some cursor => grind

/-- An iterator refuses to go on exactly if the key that it names is away. -/
theorem next_eq_error : it.next s = .error key ↔
    it.cursor = some key ∧ (s.entries it.array).contains key = false := by
  unfold next
  cases it.cursor with
  | none => simp
  | some cursor => grind
end Iterator

/-! ## Walks -/

/-- An iterator at work. -/
structure Walk where
  store : Store
  iterator : Iterator
  /-- The keys that the iterator has yielded, in this order. -/
  yielded : List String
  /-- What the store has been since the iterator was made, newest first. -/
  moments : List Store

namespace Walk

/-- A walk over a container begins. -/
def start (s : Store) (ref : ArrayRef) : Walk :=
  { store := s, iterator := s.iterate ref, yielded := [], moments := [s] }

/-- What the iterator does next. -/
def next (w : Walk) : Except String (Option String × Iterator) :=
  w.iterator.next w.store

/-- One thing happens: a change of the store, or an answer of the iterator. -/
inductive Step (w : Walk) : Walk → Prop where
  | change {t : Store} : w.store.Changes t →
      Step w { w with store := t, moments := t :: w.moments }
  | answer {key : Option String} {it : Iterator} : w.next = .ok (key, it) →
      Step w { w with iterator := it, yielded := w.yielded ++ key.toList }

/-- A walk goes on to another one in any number of steps. -/
inductive Reaches (w : Walk) : Walk → Prop where
  | start : Reaches w w
  | step {u v : Walk} : Reaches w u → Step u v → Reaches w v

/-- The container that the walk is over has a key. -/
def Has (ref : ArrayRef) (s : Store) (key : String) : Prop :=
  (s.entries ref).contains key = true

/-- Where a walk over a container is: what was yielded lies below the cursor, and what was never
away and was not yielded does not. -/
structure OnTrack (ref : ArrayRef) (w : Walk) : Prop where
  array : w.iterator.array = ref
  exists_of_cursor : ∀ {cursor}, w.iterator.cursor = some cursor →
    ref.index < w.store.containers.size
  increasing : w.yielded.Pairwise (· < ·)
  below : ∀ {cursor}, w.iterator.cursor = some cursor → ∀ key ∈ w.yielded, key < cursor
  current : w.store ∈ w.moments
  lasting : ∀ key, (∀ s ∈ w.moments, Has ref s key) → key ∈ w.yielded ∨
    ∃ cursor, w.iterator.cursor = some cursor ∧ cursor ≤ key

variable {ref : ArrayRef} {s : Store} {w v : Walk}

theorem onTrack_start (s : Store) (ref : ArrayRef) : OnTrack ref (start s ref) where
  array := rfl
  exists_of_cursor := by
    intro cursor hcursor
    refine Nat.lt_of_not_le fun (hle : s.containers.size ≤ ref.index) => ?_
    have hempty : s.entries ref = .empty := by
      rw [Store.entries, Array.getElem?_eq_none hle]
      rfl
    simp only [start, Store.iterate, hempty] at hcursor
    cases hcursor
  increasing := .nil
  below := fun _ key hkey => by cases hkey
  current := List.mem_cons_self
  lasting := by
    intro key hlasting
    right
    have hkey := Entries.contains_iff_mem_keys.1 (hlasting s List.mem_cons_self)
    have hfirst := Entries.firstKey?_eq_find? (s.entries ref)
    cases hcursor : (s.entries ref).firstKey? with
    | none =>
      rw [hcursor] at hfirst
      exact absurd rfl (List.find?_eq_none.1 hfirst.symm key hkey)
    | some cursor =>
      rw [hcursor] at hfirst
      exact ⟨cursor, hcursor,
        Entries.le_of_find? (s.entries ref).pairwise_keys hfirst.symm key hkey rfl⟩

/-- A change of the store leaves the walk on its track. -/
theorem OnTrack.change {t : Store} (h : OnTrack ref w) (hchange : w.store.Changes t) :
    OnTrack ref { w with store := t, moments := t :: w.moments } where
  array := h.array
  exists_of_cursor := fun hcursor => Nat.lt_of_lt_of_le (h.exists_of_cursor hcursor) hchange.size_le
  increasing := h.increasing
  below := h.below
  current := List.mem_cons_self
  lasting := fun key hlasting => h.lasting key fun s hs => hlasting s (List.mem_cons_of_mem _ hs)

/-- An answer without a key leaves everything as it is. -/
theorem OnTrack.exhausted {it : Iterator} (h : OnTrack ref w) (hnext : w.next = .ok (none, it)) :
    OnTrack ref { w with iterator := it, yielded := w.yielded ++ [] } := by
  obtain ⟨-, rfl⟩ := Iterator.next_eq_none.1 hnext
  rw [List.append_nil]
  exact h

/-- After a key is yielded the cursor is the least key above it. -/
theorem OnTrack.yield {key : String} {it : Iterator} (h : OnTrack ref w)
    (hnext : w.next = .ok (some key, it)) :
    OnTrack ref { w with iterator := it, yielded := w.yielded ++ [key] } := by
  obtain ⟨hcursor, hhas, rfl⟩ := Iterator.next_eq_some.1 hnext
  have harray := h.array
  rw [harray]
  refine ⟨rfl, fun _ => h.exists_of_cursor hcursor, ?_, ?_, h.current, ?_⟩
  · refine List.pairwise_append.2 ⟨h.increasing, List.pairwise_singleton _ _, ?_⟩
    intro old hold new hnew
    rw [List.mem_singleton.1 hnew]
    exact h.below hcursor old hold
  · intro cursor hafter old hold
    rcases List.mem_append.1 hold with hold | hold
    · exact String.lt_trans (h.below hcursor old hold) (Entries.lt_of_keyAfter? hafter)
    · rw [List.mem_singleton.1 hold]
      exact Entries.lt_of_keyAfter? hafter
  · intro other hlasting
    rcases h.lasting other hlasting with hyielded | ⟨cursor, hcursor', hle⟩
    · exact .inl (List.mem_append_left _ hyielded)
    rw [hcursor] at hcursor'
    cases hcursor'
    by_cases heq : other = key
    · exact .inl (List.mem_append_right _ (List.mem_singleton.2 heq))
    -- the key lies above the one just yielded, so the new cursor is not beyond it
    have hlt : key < other := String.not_le.1 fun hge => heq (String.le_antisymm hge hle)
    have hother := Entries.contains_iff_mem_keys.1 (hlasting w.store h.current)
    right
    cases hafter : (w.store.entries ref).keyAfter? key with
    | none => exact absurd (decide_eq_true hlt) (List.find?_eq_none.1 hafter other hother)
    | some cursor =>
      refine ⟨cursor, rfl, ?_⟩
      exact Entries.le_of_find? (w.store.entries ref).pairwise_keys hafter other hother
        (decide_eq_true hlt)

theorem OnTrack.step (h : OnTrack ref w) (hstep : w.Step v) : OnTrack ref v := by
  cases hstep with
  | change hchange => exact h.change hchange
  | @answer key it hnext =>
    cases key with
    | none => exact h.exhausted hnext
    | some key => exact h.yield hnext

theorem onTrack_of_reaches (h : (start s ref).Reaches w) : OnTrack ref w := by
  induction h with
  | start => exact onTrack_start s ref
  | step _ hstep ih => exact ih.step hstep

/-- An iterator that is exhausted stays so, whatever happens to the store. -/
theorem Reaches.exhausted (h : w.Reaches v) (hcursor : w.iterator.cursor = none) :
    v.iterator = w.iterator := by
  induction h with
  | start => rfl
  | step _ hstep ih =>
    cases hstep with
    | change _ => exact ih
    | @answer key it hnext =>
      cases key with
      | none => exact (Iterator.next_eq_none.1 hnext).2.trans ih
      | some key =>
        have hsome := (Iterator.next_eq_some.1 hnext).1
        rw [ih, hcursor] at hsome
        cases hsome

/-- A key that is stored again can be yielded. -/
theorem OnTrack.resumes {key : String} (h : OnTrack ref w) (hnext : w.next = .error key)
    (value : Value) :
    ∃ it, w.iterator.next (w.store.insert ref key value) = .ok (some key, it) := by
  obtain ⟨hcursor, -⟩ := Iterator.next_eq_error.1 hnext
  refine ⟨_, Iterator.next_eq_some.2 ⟨hcursor, ?_, rfl⟩⟩
  rw [h.array, Store.insert, Store.entries_modify _ _ (h.exists_of_cursor hcursor),
    Entries.contains, Entries.get?_insert, if_pos rfl]
  rfl

/-- A key that was never away is yielded exactly once by the time the iterator is exhausted. -/
theorem OnTrack.yields_lasting (h : OnTrack ref w) (hcursor : w.iterator.cursor = none)
    {key : String} (hlasting : ∀ s ∈ w.moments, Has ref s key) : w.yielded.count key = 1 := by
  have hnodup : w.yielded.Nodup := by
    refine List.Pairwise.imp ?_ h.increasing
    rintro a b hlt rfl
    exact String.lt_irrefl a hlt
  have hmem : key ∈ w.yielded := by
    rcases h.lasting key hlasting with hmem | ⟨cursor, hsome, -⟩
    · exact hmem
    · rw [hcursor] at hsome
      cases hsome
  rw [hnodup.count, if_pos hmem]

/-- A loop whose iterator refuses to go on fails with the key, and the iterator stays where it
was. -/
theorem advance_of_error {key : String} {it : Iterator} {place : Place} {state : State}
    (h : it.next state.world.store = .error key) :
    Execution.advance place it state = .error (.fault (.iteratorLost key)) state := by
  simp only [Execution.advance, Execution.world, bind, EStateM.bind, h]
  rfl

/-- What an iterator does however changes of the store are interleaved with its steps.  It yields
keys in increasing order of their bytes, each while the array has it.  It refuses to go on exactly
if the key that it names is away; then it stays as it is, and it goes on with that key once it is
there again.  Once it is exhausted it stays so, and by then it has yielded every key that was never
away exactly once. -/
theorem yields_in_order (h : (start s ref).Reaches w) :
    w.yielded.Pairwise (fun a b => utf8Bytes a < utf8Bytes b) ∧
    (∀ key it, w.next = .ok (some key, it) → Has ref w.store key) ∧
    (∀ key, w.next = .error key ↔ w.iterator.cursor = some key ∧ ¬ Has ref w.store key) ∧
    (∀ key, w.next = .error key →
      (∀ place state, state.world.store = w.store →
        Execution.advance place w.iterator state = .error (.fault (.iteratorLost key)) state) ∧
      ∀ value, ∃ it, w.iterator.next (w.store.insert ref key value) = .ok (some key, it)) ∧
    ∀ it, w.next = .ok (none, it) →
      (∀ v, w.Reaches v → v.next = .ok (none, it)) ∧
      ∀ key, (∀ s ∈ w.moments, Has ref s key) → w.yielded.count key = 1 := by
  have htrack := onTrack_of_reaches h
  have harray := htrack.array
  refine ⟨?_, ?_, ?_, ?_, ?_⟩
  · exact htrack.increasing.imp fun hlt => (lt_iff_utf8Bytes_lt _ _).1 hlt
  · intro key it hnext
    exact harray ▸ (Iterator.next_eq_some.1 hnext).2.1
  · intro key
    rw [next, Iterator.next_eq_error, harray, Has, Bool.not_eq_true]
  · intro key hnext
    refine ⟨fun place state hstore => advance_of_error ?_, htrack.resumes hnext⟩
    rw [hstore]
    exact hnext
  · intro it hnext
    obtain ⟨hcursor, rfl⟩ := Iterator.next_eq_none.1 hnext
    refine ⟨fun v hv => ?_, fun key hlasting => htrack.yields_lasting hcursor hlasting⟩
    have hsame := hv.exhausted hcursor
    exact Iterator.next_eq_none.2 ⟨hsame ▸ hcursor, hsame.symm⟩

end Walk

namespace Sample

/-- A store whose only array has three keys. -/
def letters : Store :=
  ⟨#[.ofList [("a", .int 1), ("b", .int 2), ("c", .int 3)]]⟩

/-- The array of the letters. -/
def lettersRef : ArrayRef :=
  ⟨0⟩

/-- The store once `b` was removed. -/
def gapped : Store :=
  letters.erase lettersRef "b"

/-- The store once `b` was stored again. -/
def mended : Store :=
  gapped.insert lettersRef "b" .unset

/-- A walk over the letters in which `b` was away while it was due. -/
def interrupted : Walk :=
  { store := mended, iterator := ⟨lettersRef, none⟩, yielded := ["a", "b", "c"]
    moments := [mended, gapped, letters] }

end Sample

/-- The keys that were never away, and the one that was, are yielded once. -/
theorem Walk.yields_in_order_when_interrupted :
    (Walk.start Sample.letters Sample.lettersRef).Reaches Sample.interrupted ∧
      (⟨Sample.lettersRef, some "b"⟩ : Iterator).next Sample.gapped = .error "b" ∧
      Sample.interrupted.yielded.count "c" = 1 := by
  have hfirst : (Walk.start Sample.letters Sample.lettersRef).Reaches
      ⟨Sample.letters, ⟨Sample.lettersRef, some "b"⟩, ["a"], [Sample.letters]⟩ :=
    .step .start (@Walk.Step.answer _ (some "a") _ rfl)
  have hgapped : (Walk.start Sample.letters Sample.lettersRef).Reaches
      ⟨Sample.gapped, ⟨Sample.lettersRef, some "b"⟩, ["a"], [Sample.gapped, Sample.letters]⟩ :=
    .step hfirst (.change (.erase _ _))
  have hmended : (Walk.start Sample.letters Sample.lettersRef).Reaches
      ⟨Sample.mended, ⟨Sample.lettersRef, some "b"⟩, ["a"],
        [Sample.mended, Sample.gapped, Sample.letters]⟩ :=
    .step hgapped (.change (.insert _ _ _))
  have hsecond : (Walk.start Sample.letters Sample.lettersRef).Reaches
      ⟨Sample.mended, ⟨Sample.lettersRef, some "c"⟩, ["a", "b"],
        [Sample.mended, Sample.gapped, Sample.letters]⟩ :=
    .step hmended (@Walk.Step.answer _ (some "b") _ rfl)
  have hreaches : (Walk.start Sample.letters Sample.lettersRef).Reaches Sample.interrupted :=
    .step hsecond (@Walk.Step.answer _ (some "c") _ rfl)
  obtain ⟨-, -, -, -, hend⟩ := Walk.yields_in_order hreaches
  refine ⟨hreaches, rfl, (hend _ rfl).2 "c" fun s hs => ?_⟩
  simp only [Sample.interrupted, List.mem_cons, List.not_mem_nil, or_false] at hs
  rcases hs with rfl | rfl | rfl
  all_goals rfl

end MacroMachine
