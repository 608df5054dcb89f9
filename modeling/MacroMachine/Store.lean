import MacroMachine.Entries
import MacroMachine.Value

/-!
# The store

Array containers live in a store.  A value that is an array names its container, so every copy of
the value sees every change.  Containers are numbered as they are made and are never given up; a
name that no container has reads as an empty one.

*Iterators.*  An iterator names the key that it yields next and finds it again in the container as
the container then is.  Other keys may come and go meanwhile; if the key itself is gone the iterator
refuses to go on and stays where it is.
-/

namespace MacroMachine

/-- The array containers, by their names. -/
structure Store where
  containers : Array (Entries Value)
deriving DecidableEq, Repr, Inhabited

namespace Store

/-- A store without containers. -/
def empty : Store :=
  ⟨#[]⟩

/-- What a container holds. -/
def entries (s : Store) (ref : ArrayRef) : Entries Value :=
  s.containers[ref.index]?.getD .empty

/-- Makes a new container. -/
def alloc (s : Store) (e : Entries Value) : ArrayRef × Store :=
  (⟨s.containers.size⟩, ⟨s.containers.push e⟩)

/-- Changes what a container holds. -/
def modify (s : Store) (ref : ArrayRef) (f : Entries Value → Entries Value) : Store :=
  ⟨s.containers.modify ref.index f⟩

/-- Stores a value in a container. -/
def insert (s : Store) (ref : ArrayRef) (key : String) (value : Value) : Store :=
  s.modify ref (·.insert key value)

/-- Removes a key from a container. -/
def erase (s : Store) (ref : ArrayRef) (key : String) : Store :=
  s.modify ref (·.erase key)

/-- Empties a container. -/
def clear (s : Store) (ref : ArrayRef) : Store :=
  s.modify ref fun _ => .empty

/-- A new container with the entries of an old one; arrays among them stay shared. -/
def copy (s : Store) (ref : ArrayRef) : ArrayRef × Store :=
  s.alloc (s.entries ref)

/-- A new container with the union of two others. -/
def union (s : Store) (left right : ArrayRef) : ArrayRef × Store :=
  s.alloc ((s.entries left).union (s.entries right))

/-- A new container with the difference of two others. -/
def difference (s : Store) (left right : ArrayRef) : ArrayRef × Store :=
  s.alloc ((s.entries left).difference (s.entries right))

/-- A new container with the intersection of two others. -/
def intersection (s : Store) (left right : ArrayRef) : ArrayRef × Store :=
  s.alloc ((s.entries left).intersection (s.entries right))

/-- What an assignment stores: an array is copied one level deep, any other value is kept. -/
def copyForAssignment (s : Store) : Value → Value × Store
  | .array ref =>
    let (fresh, s) := s.copy ref
    (.array fresh, s)
  | v => (v, s)

/-- An iterator at the first key of a container. -/
def iterate (s : Store) (ref : ArrayRef) : Iterator :=
  { array := ref, cursor := (s.entries ref).firstKey? }

/-! ## Laws of containers -/

/-- A new container holds what it was made with. -/
@[simp] theorem entries_alloc (s : Store) (e : Entries Value) :
    (s.alloc e).2.entries (s.alloc e).1 = e := by
  simp [alloc, entries]

/-- Making a container changes no other one. -/
theorem entries_alloc_of_ne (s : Store) (e : Entries Value) {ref : ArrayRef}
    (h : ref ≠ (s.alloc e).1) : (s.alloc e).2.entries ref = s.entries ref := by
  obtain ⟨i⟩ := ref
  have hi : i ≠ s.containers.size := by
    rintro rfl
    exact h rfl
  simp only [alloc, entries, Array.getElem?_push]
  split
  · contradiction
  · rfl

/-- Changing a container that exists changes what it holds. -/
theorem entries_modify (s : Store) (f : Entries Value → Entries Value) {ref : ArrayRef}
    (h : ref.index < s.containers.size) : (s.modify ref f).entries ref = f (s.entries ref) := by
  simp only [modify, entries, Array.getElem?_modify]
  simp [h]

/-- Changing a container changes no other one. -/
theorem entries_modify_of_ne (s : Store) (f : Entries Value → Entries Value) {ref other : ArrayRef}
    (h : other ≠ ref) : (s.modify ref f).entries other = s.entries other := by
  obtain ⟨i⟩ := ref
  obtain ⟨j⟩ := other
  have hij : i ≠ j := by
    rintro rfl
    exact h rfl
  simp [modify, entries, Array.getElem?_modify, hij]

end Store

/-- Yields the key that an iterator names and moves to the next one.  The failure is the key that
the container no longer has. -/
def Iterator.next (it : Iterator) (s : Store) : Except String (Option String × Iterator) :=
  match it.cursor with
  | none => .ok (none, it)
  | some key =>
    let e := s.entries it.array
    if e.contains key then .ok (some key, { it with cursor := e.keyAfter? key })
    else .error key

end MacroMachine
