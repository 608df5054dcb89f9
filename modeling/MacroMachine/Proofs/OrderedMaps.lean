import Mathlib.Data.Set.Card
import MacroMachine.Proofs.ArrayAlgebra

/-!
# Arrays as ordered maps

Arrays are handles of containers in a store, and several handles may name one container.  This
module says what a client sees who makes, changes, copies and merges arrays, clones their handles
and fetches arrays out of other arrays, in any order.

*Meaning.*  A `Heap` is what the operations work on: a store, and the handles that the client has.
A `Chronicle` says what they mean without a store.  It lists what has happened to each container,
and the last event that has to do with a key tells its value (`Chronicle.bound`).

*Agreement.*  A chronicle tells what every container of the heap holds (`Agrees`).  Each operation
keeps this, and so does every run (`Agrees.after`).

*Handles.*  An operation changes one container at most (`Heap.entries_perform`), and a handle names
the same container ever after (`Heap.handles_run`).  So a clone shows every change of its original
(`Agrees.clone`), and a shallow copy shows none (`Agrees.shallowCopy`).
-/

namespace MacroMachine.Arrays

/-! ## Operations on arrays -/

/-- What can be stored in an array: a plain value, or the array that a handle names. -/
inductive Item where
  | plain (v : Value) (h : v.isArray = false)
  | handle (i : Nat)

/-- An operation on arrays, which are named by the positions of their handles. -/
inductive Act where
  | new
  | insert (i : Nat) (key : String) (item : Item)
  | delete (i : Nat) (key : String)
  | deleteAll (i : Nat)
  | shallowCopy (i : Nat)
  | clone (i : Nat)
  | merge (op : SetOperator) (i j : Nat)
  /-- Makes a handle for the array that is stored under a key. -/
  | fetch (i : Nat) (key : String)

/-- A change of one container. -/
inductive Deed where
  | insert (key : String) (v : Value)
  | delete (key : String)
  | deleteAll

/-- An operation on containers. -/
inductive Request where
  | new
  | change (ref : ArrayRef) (deed : Deed)
  | copy (ref : ArrayRef)
  | share (ref : ArrayRef)
  | merge (op : SetOperator) (left right : ArrayRef)
  | fetch (ref : ArrayRef) (key : String)

/-- The value of an item; none if there is no such handle. -/
def Item.value? (handles : List ArrayRef) : Item → Option Value
  | .plain v _ => some v
  | .handle i => handles[i]?.map .array

/-- The containers that an operation means; none if there is no such handle. -/
def Act.request? (handles : List ArrayRef) : Act → Option Request
  | .new => some .new
  | .insert i key item =>
    handles[i]?.bind fun ref => (item.value? handles).map fun v => .change ref (.insert key v)
  | .delete i key => handles[i]?.map (.change · (.delete key))
  | .deleteAll i => handles[i]?.map (.change · .deleteAll)
  | .shallowCopy i => handles[i]?.map .copy
  | .clone i => handles[i]?.map .share
  | .merge op i j => handles[i]?.bind fun left => handles[j]?.map fun right => .merge op left right
  | .fetch i key => handles[i]?.map (.fetch · key)

/-! ## What they do -/

/-- A store, and handles of containers in it. -/
structure Heap where
  store : Store
  handles : List ArrayRef

/-- Carries out a change. -/
def Deed.perform (ref : ArrayRef) : Deed → Store → Store
  | .insert key v, store => store.insert ref key v
  | .delete key, store => store.erase ref key
  | .deleteAll, store => store.clear ref

namespace Heap

def empty : Heap :=
  ⟨.empty, []⟩

/-- Keeps a handle of a container, with the store in which it lies. -/
def keep (h : Heap) (made : ArrayRef × Store) : Heap :=
  ⟨made.2, h.handles ++ [made.1]⟩

/-- What is made or fetched gets a handle of its own. -/
def perform (h : Heap) : Request → Heap
  | .new => h.keep (h.store.alloc .empty)
  | .change ref deed => { h with store := deed.perform ref h.store }
  | .copy ref => h.keep (h.store.copy ref)
  | .share ref => h.keep (ref, h.store)
  | .merge op left right => h.keep (op.make h.store left right)
  | .fetch ref key =>
    match (h.store.entries ref).get? key with
    | some (.array inner) => h.keep (inner, h.store)
    | _ => h

/-- An operation on a handle that there is not does nothing. -/
def apply (h : Heap) (act : Act) : Heap :=
  (act.request? h.handles).elim h h.perform

def run (h : Heap) (acts : List Act) : Heap :=
  acts.foldl apply h

/-- The heap after some operations, from the beginning. -/
def after (acts : List Act) : Heap :=
  empty.run acts

/-- What an array shows through a handle. -/
def view (h : Heap) (i : Nat) : Option (Entries Value) :=
  h.handles[i]?.map h.store.entries

end Heap

/-! ## What they mean -/

/-- What has happened to a container. -/
inductive Event where
  /-- It has been made, with these values under its keys. -/
  | made (ref : ArrayRef) (contents : String → Option Value)
  | changed (ref : ArrayRef) (deed : Deed)

/-- What a change leaves under a key, if it has to do with the key. -/
def Deed.settles (key : String) : Deed → Option (Option Value)
  | .insert k v => if k = key then some (some v) else none
  | .delete k => if k = key then some none else none
  | .deleteAll => some none

/-- What an event leaves under a key of a container, if it has to do with them. -/
def Event.settles (ref : ArrayRef) (key : String) : Event → Option (Option Value)
  | .made r contents => if r = ref then some (contents key) else none
  | .changed r deed => if r = ref then deed.settles key else none

/-- The value that a set operator takes from the two sides of a key. -/
def merged : SetOperator → Option Value → Option Value → Option Value
  | .union, left, right | .sum, left, right => right.or left
  | .difference, left, right => if right.isSome then none else left
  | .intersection, left, right => if left.isSome then right else none

/-- All that has happened to any container, the last event first. -/
structure Chronicle where
  count : Nat
  handles : List ArrayRef
  events : List Event

namespace Chronicle

def empty : Chronicle :=
  ⟨0, [], []⟩

/-- The value that the last event that has to do with a key has left there. -/
def bound (c : Chronicle) (ref : ArrayRef) (key : String) : Option Value :=
  (c.events.findSome? (·.settles ref key)).join

/-- A container is made, under the next name. -/
def make (c : Chronicle) (contents : String → Option Value) : Chronicle :=
  ⟨c.count + 1, c.handles ++ [⟨c.count⟩], .made ⟨c.count⟩ contents :: c.events⟩

def share (c : Chronicle) (ref : ArrayRef) : Chronicle :=
  { c with handles := c.handles ++ [ref] }

/-- What an operation means.  A new container begins with what others are bound to by now. -/
def perform (c : Chronicle) : Request → Chronicle
  | .new => c.make fun _ => none
  | .change ref deed => { c with events := .changed ref deed :: c.events }
  | .copy ref => c.make (c.bound ref)
  | .share ref => c.share ref
  | .merge op left right => c.make fun key => merged op (c.bound left key) (c.bound right key)
  | .fetch ref key =>
    match c.bound ref key with
    | some (.array inner) => c.share inner
    | _ => c

def apply (c : Chronicle) (act : Act) : Chronicle :=
  (act.request? c.handles).elim c c.perform

def run (c : Chronicle) (acts : List Act) : Chronicle :=
  acts.foldl apply c

def after (acts : List Act) : Chronicle :=
  empty.run acts

end Chronicle

/-! ## Changes of entries -/

/-- What a change makes of the entries of its container. -/
def Deed.apply : Deed → Entries Value → Entries Value
  | .insert key v, e => e.insert key v
  | .delete key, e => e.erase key
  | .deleteAll, _ => .empty

theorem Deed.perform_eq (deed : Deed) (ref : ArrayRef) (store : Store) :
    deed.perform ref store = store.modify ref deed.apply := by
  cases deed <;> rfl

theorem Deed.eq_insert_of_settles {deed : Deed} {key : String} {v : Value}
    (h : deed.settles key = some (some v)) : deed = .insert key v := by
  cases deed with
  | insert k w =>
    rw [settles] at h
    split at h
    · next hkey =>
      cases h
      rw [hkey]
    · cases h
  | delete k =>
    rw [settles] at h
    split at h
    · cases h
    · cases h
  | deleteAll => cases h

theorem Deed.get?_apply (deed : Deed) (e : Entries Value) (key : String) :
    (deed.apply e).get? key = (deed.settles key).getD (e.get? key) := by
  cases deed with
  | insert k v =>
    rw [apply, settles, Entries.get?_insert]
    by_cases h : k = key
    · rw [if_pos h, if_pos h.symm]
      rfl
    · rw [if_neg h, if_neg (Ne.symm h)]
      rfl
  | delete k =>
    rw [apply, settles, Entries.get?_erase]
    by_cases h : k = key
    · rw [if_pos h, if_pos h.symm]
      rfl
    · rw [if_neg h, if_neg (Ne.symm h)]
      rfl
  | deleteAll => rfl

theorem get?_merge (op : SetOperator) (left right : Entries Value) (key : String) :
    (op.merge left right).get? key = merged op (left.get? key) (right.get? key) := by
  cases op with
  | union => exact Entries.get?_union left right key
  | sum => exact Entries.get?_union left right key
  | difference => exact Entries.get?_difference left right key
  | intersection => exact Entries.get?_intersection left right key

/-- A set operator makes up no values. -/
theorem merged_eq_some {op : SetOperator} {left right : Option Value} {v : Value}
    (h : merged op left right = some v) : left = some v ∨ right = some v := by
  cases op <;> cases left <;> cases right <;> simp_all [merged]

/-- What an operation makes of the entries of a container that is there. -/
def Request.effect (ref : ArrayRef) (e : Entries Value) : Request → Entries Value
  | .change changed deed => if changed = ref then deed.apply e else e
  | _ => e

def Act.effect (act : Act) (handles : List ArrayRef) (ref : ArrayRef) (e : Entries Value) :
    Entries Value :=
  (act.request? handles).elim e (·.effect ref e)

/-! ## One operation -/

section Operation

variable {h : Heap} {c : Chronicle} {ref : ArrayRef} {request : Request} {act : Act}

/-- There is a container of this name. -/
def Has (store : Store) (ref : ArrayRef) : Prop :=
  ref.index < store.containers.size

theorem has_alloc {store : Store} (href : Has store ref) (e : Entries Value) :
    Has (store.alloc e).2 ref := by
  simp only [Has, Store.alloc, Array.size_push]
  exact Nat.lt_succ_of_lt href

theorem has_alloc_self (store : Store) (e : Entries Value) :
    Has (store.alloc e).2 (store.alloc e).1 := by
  simp [Has, Store.alloc]

theorem has_of_alloc {store : Store} {e : Entries Value} (href : Has (store.alloc e).2 ref)
    (hne : ref ≠ (store.alloc e).1) : Has store ref := by
  simp only [Has, Store.alloc, Array.size_push] at href
  refine Nat.lt_of_le_of_ne (Nat.le_of_lt_succ href) fun heq => hne ?_
  exact congrArg ArrayRef.mk heq

theorem ne_alloc {store : Store} (href : Has store ref) (e : Entries Value) :
    ref ≠ (store.alloc e).1 := by
  rintro rfl
  exact Nat.lt_irrefl _ href

theorem has_perform (deed : Deed) {store : Store} {changed : ArrayRef} :
    Has (deed.perform changed store) ref ↔ Has store ref := by
  rw [deed.perform_eq, Has, Has, Store.modify, Array.size_modify]

/-- An operation changes no other containers than it says. -/
theorem Heap.entries_perform (href : Has h.store ref) (request : Request) :
    (h.perform request).store.entries ref = request.effect ref (h.store.entries ref) := by
  cases request with
  | new => exact Store.entries_alloc_of_ne _ _ (ne_alloc href _)
  | change changed deed =>
    rw [perform, Request.effect, deed.perform_eq]
    by_cases heq : changed = ref
    · subst heq
      rw [if_pos rfl, Store.entries_modify _ _ href]
    · rw [if_neg heq, Store.entries_modify_of_ne _ _ (Ne.symm heq)]
  | copy source => exact Store.entries_alloc_of_ne _ _ (ne_alloc href _)
  | share source => rfl
  | merge op left right => exact Store.entries_alloc_of_ne _ _ (ne_alloc href _)
  | fetch source key =>
    rw [perform]
    split
    · rfl
    · rfl

theorem Heap.entries_apply (href : Has h.store ref) (act : Act) :
    (h.apply act).store.entries ref = act.effect h.handles ref (h.store.entries ref) := by
  rw [apply, Act.effect]
  cases act.request? h.handles with
  | none => rfl
  | some request => exact entries_perform href request

/-- Handles are only added. -/
theorem Heap.handles_perform (h : Heap) (request : Request) :
    h.handles <+: (h.perform request).handles := by
  cases request with
  | change changed deed => exact List.prefix_rfl
  | fetch source key =>
    rw [perform]
    split
    · exact List.prefix_append _ _
    · exact List.prefix_rfl
  | _ => exact List.prefix_append _ _

theorem Chronicle.bound_cons {c' : Chronicle} {event : Event}
    (hevents : c'.events = event :: c.events) (key : String) :
    c'.bound ref key = (event.settles ref key).getD (c.bound ref key) := by
  rw [bound, hevents, List.findSome?_cons]
  cases event.settles ref key with
  | none => rfl
  | some left => rfl

/-- An array that is stored is there. -/
def Deed.Valid (has : ArrayRef → Prop) (deed : Deed) : Prop :=
  ∀ key inner, deed = .insert key (.array inner) → has inner

/-- The containers that an operation means are there. -/
def Request.Valid (has : ArrayRef → Prop) : Request → Prop
  | .new => True
  | .change ref deed => has ref ∧ deed.Valid has
  | .copy ref | .share ref | .fetch ref _ => has ref
  | .merge _ left right => has left ∧ has right

/-- A chronicle tells the state of a heap. -/
structure Agrees (h : Heap) (c : Chronicle) : Prop where
  count : c.count = h.store.containers.size
  handles : c.handles = h.handles
  has : ∀ ref ∈ h.handles, Has h.store ref
  nested : ∀ ref key inner, (h.store.entries ref).get? key = some (.array inner) →
    Has h.store inner
  bound : ∀ ref, Has h.store ref → ∀ key, (h.store.entries ref).get? key = c.bound ref key

/-- Operations mean containers that have handles, and these are there. -/
theorem Act.valid_of_request? {handles : List ArrayRef} {has : ArrayRef → Prop}
    (hhas : ∀ ref ∈ handles, has ref) (hrequest : act.request? handles = some request) :
    request.Valid has := by
  have hhandle : ∀ {i ref}, handles[i]? = some ref → has ref := fun href =>
    hhas _ (List.mem_of_getElem? href)
  cases act with
  | new =>
    cases hrequest
    trivial
  | insert i key item =>
    obtain ⟨ref, href, hitem⟩ := Option.bind_eq_some_iff.1 hrequest
    obtain ⟨v, hv, rfl⟩ := Option.map_eq_some_iff.1 hitem
    refine ⟨hhandle href, fun k inner hinner => ?_⟩
    cases hinner
    cases item with
    | plain v hplain =>
      cases hv
      cases hplain
    | handle j =>
      obtain ⟨inner, hinner, hv⟩ := Option.map_eq_some_iff.1 hv
      cases hv
      exact hhandle hinner
  | delete i key =>
    obtain ⟨ref, href, rfl⟩ := Option.map_eq_some_iff.1 hrequest
    exact ⟨hhandle href, fun k inner hinner => by cases hinner⟩
  | deleteAll i =>
    obtain ⟨ref, href, rfl⟩ := Option.map_eq_some_iff.1 hrequest
    exact ⟨hhandle href, fun k inner hinner => by cases hinner⟩
  | shallowCopy i =>
    obtain ⟨ref, href, rfl⟩ := Option.map_eq_some_iff.1 hrequest
    exact hhandle href
  | clone i =>
    obtain ⟨ref, href, rfl⟩ := Option.map_eq_some_iff.1 hrequest
    exact hhandle href
  | merge op i j =>
    obtain ⟨left, hleft, hmerge⟩ := Option.bind_eq_some_iff.1 hrequest
    obtain ⟨right, hright, rfl⟩ := Option.map_eq_some_iff.1 hmerge
    exact ⟨hhandle hleft, hhandle hright⟩
  | fetch i key =>
    obtain ⟨ref, href, rfl⟩ := Option.map_eq_some_iff.1 hrequest
    exact hhandle href

namespace Agrees

/-- A new container. -/
theorem make (hc : Agrees h c) {e : Entries Value} {contents : String → Option Value}
    (hcontents : ∀ key, e.get? key = contents key)
    (hnested : ∀ key inner, e.get? key = some (.array inner) → Has h.store inner) :
    Agrees (h.keep (h.store.alloc e)) (c.make contents) := by
  have hself : (⟨c.count⟩ : ArrayRef) = (h.store.alloc e).1 := congrArg ArrayRef.mk hc.count
  refine ⟨?_, ?_, ?_, ?_, ?_⟩
  · rw [Chronicle.make, Heap.keep, hc.count]
    exact (Array.size_push _).symm
  · rw [Chronicle.make, Heap.keep, hc.handles, hself]
  · intro ref hmem
    rcases List.mem_append.1 hmem with hold | hnew
    · exact has_alloc (hc.has ref hold) e
    · cases List.mem_singleton.1 hnew
      exact has_alloc_self h.store e
  · intro ref key inner hget
    refine has_alloc ?_ e
    by_cases href : ref = (h.store.alloc e).1
    · subst href
      rw [Heap.keep, Store.entries_alloc] at hget
      exact hnested key inner hget
    · rw [Heap.keep, Store.entries_alloc_of_ne _ _ href] at hget
      exact hc.nested ref key inner hget
  · intro ref href key
    have hevents : (c.make contents).events = .made ⟨c.count⟩ contents :: c.events := rfl
    rw [Chronicle.bound_cons hevents, Event.settles, hself]
    by_cases hnew : (h.store.alloc e).1 = ref
    · subst hnew
      rw [if_pos rfl, Heap.keep, Store.entries_alloc]
      exact hcontents key
    · rw [if_neg hnew, Heap.keep, Store.entries_alloc_of_ne _ _ (Ne.symm hnew)]
      exact hc.bound ref (has_of_alloc href (Ne.symm hnew)) key

/-- Another handle of a container. -/
theorem share (hc : Agrees h c) (href : Has h.store ref) :
    Agrees (h.keep (ref, h.store)) (c.share ref) := by
  refine ⟨hc.count, congrArg (· ++ [ref]) hc.handles, ?_, hc.nested, hc.bound⟩
  intro other hmem
  rcases List.mem_append.1 hmem with hold | hnew
  · exact hc.has other hold
  · cases List.mem_singleton.1 hnew
    exact href

theorem change (hc : Agrees h c) (href : Has h.store ref) {deed : Deed}
    (hdeed : deed.Valid (Has h.store)) :
    Agrees { h with store := deed.perform ref h.store }
      { c with events := .changed ref deed :: c.events } := by
  have hhas : ∀ {other}, Has (deed.perform ref h.store) other ↔ Has h.store other :=
    has_perform deed
  refine ⟨?_, hc.handles, fun other hmem => hhas.2 (hc.has other hmem), ?_, ?_⟩
  · rw [hc.count, deed.perform_eq, Store.modify, Array.size_modify]
  · intro other key inner hget
    refine hhas.2 ?_
    rw [deed.perform_eq] at hget
    by_cases heq : other = ref
    · subst heq
      rw [Store.entries_modify _ _ href, deed.get?_apply] at hget
      cases hsettles : deed.settles key with
      | none =>
        rw [hsettles] at hget
        exact hc.nested other key inner hget
      | some left =>
        rw [hsettles] at hget
        cases hget
        exact hdeed key inner (Deed.eq_insert_of_settles hsettles)
    · rw [Store.entries_modify_of_ne _ _ heq] at hget
      exact hc.nested other key inner hget
  · intro other hother key
    rw [Chronicle.bound_cons (c := c) rfl, Event.settles, ← hc.bound other (hhas.1 hother) key]
    refine (congrArg (Entries.get? · key) (Heap.entries_perform (hhas.1 hother)
      (.change ref deed))).trans ?_
    rw [Request.effect]
    by_cases heq : ref = other
    · rw [if_pos heq, if_pos heq, deed.get?_apply]
    · rw [if_neg heq, if_neg heq]
      rfl

/-- What an operation does is what it means. -/
theorem perform (hc : Agrees h c) (hvalid : request.Valid (Has h.store)) :
    Agrees (h.perform request) (c.perform request) := by
  cases request with
  | new => exact hc.make (fun _ => rfl) fun key inner hget => by cases hget
  | change ref deed => exact hc.change hvalid.1 hvalid.2
  | copy ref => exact hc.make (hc.bound ref hvalid) (hc.nested ref)
  | share ref => exact hc.share hvalid
  | merge op left right =>
    refine hc.make (fun key => ?_) fun key inner hget => ?_
    · rw [get?_merge, hc.bound left hvalid.1, hc.bound right hvalid.2]
    · rw [get?_merge] at hget
      rcases merged_eq_some hget with hleft | hright
      · exact hc.nested left key inner hleft
      · exact hc.nested right key inner hright
  | fetch ref key =>
    rw [Heap.perform, Chronicle.perform, ← hc.bound ref hvalid]
    split
    · next inner hget => exact hc.share (hc.nested ref key inner hget)
    · exact hc

theorem apply (hc : Agrees h c) (act : Act) : Agrees (h.apply act) (c.apply act) := by
  rw [Heap.apply, Chronicle.apply, hc.handles]
  cases hrequest : act.request? h.handles with
  | none => exact hc
  | some request => exact hc.perform (Act.valid_of_request? hc.has hrequest)

/-- A run does what it means. -/
theorem run (hc : Agrees h c) (acts : List Act) : Agrees (h.run acts) (c.run acts) := by
  induction acts generalizing h c with
  | nil => exact hc
  | cons act acts ih => exact ih (hc.apply act)

theorem after (acts : List Act) : Agrees (.after acts) (.after acts) := by
  refine Agrees.run ⟨rfl, rfl, ?_, ?_, ?_⟩ acts
  · intro ref hmem
    cases hmem
  · intro ref key inner hget
    cases hget
  · intro ref href
    exact absurd href (Nat.not_lt_zero _)

end Agrees

end Operation

/-! ## Runs -/

section Runs

variable {h : Heap} {c : Chronicle} {ref : ArrayRef} {i : Nat} {key : String}

theorem Heap.handles_apply (h : Heap) (act : Act) : h.handles <+: (h.apply act).handles := by
  rw [apply]
  cases act.request? h.handles with
  | none => exact List.prefix_rfl
  | some request => exact h.handles_perform request

/-- A handle names the same container ever after. -/
theorem Heap.handles_run (h : Heap) (acts : List Act) : h.handles <+: (h.run acts).handles := by
  induction acts generalizing h with
  | nil => exact List.prefix_rfl
  | cons act acts ih => exact (h.handles_apply act).trans (ih (h.apply act))

theorem Heap.getElem?_run (hi : h.handles[i]? = some ref) (acts : List Act) :
    (h.run acts).handles[i]? = some ref := by
  obtain ⟨added, hadded⟩ := h.handles_run acts
  rw [← hadded, List.getElem?_append_left (List.getElem?_eq_some_iff.1 hi).1, hi]

/-- Events are only added. -/
theorem Chronicle.events_apply (c : Chronicle) (act : Act) : c.events <:+ (c.apply act).events := by
  rw [apply]
  cases act.request? c.handles with
  | none => exact List.suffix_rfl
  | some request =>
    cases request with
    | share source => exact List.suffix_rfl
    | fetch source key =>
      rw [Option.elim_some, perform]
      split
      · exact List.suffix_rfl
      · exact List.suffix_rfl
    | _ => exact List.suffix_cons _ _

theorem Chronicle.events_run (c : Chronicle) (acts : List Act) :
    c.events <:+ (c.run acts).events := by
  induction acts generalizing c with
  | nil => exact List.suffix_rfl
  | cons act acts ih => exact (c.events_apply act).trans (ih (c.apply act))

/-- A value stays as long as nothing happens that has to do with its key. -/
theorem Chronicle.bound_of_settled {c' : Chronicle} {since : List Event}
    (hevents : c'.events = since ++ c.events)
    (hsince : ∀ event ∈ since, event.settles ref key = none) :
    c'.bound ref key = c.bound ref key := by
  have hnone : since.findSome? (·.settles ref key) = none := List.findSome?_eq_none_iff.2 hsince
  rw [bound, hevents, List.findSome?_append, hnone]
  rfl

theorem Agrees.get?_of_settled {h' : Heap} {c' : Chronicle} {since : List Event}
    (hc : Agrees h c) (hc' : Agrees h' c') (href : Has h.store ref) (href' : Has h'.store ref)
    (hevents : c'.events = since ++ c.events)
    (hsince : ∀ event ∈ since, event.settles ref key = none) :
    (h'.store.entries ref).get? key = (h.store.entries ref).get? key := by
  rw [hc'.bound ref href', Chronicle.bound_of_settled hevents hsince, hc.bound ref href]

end Runs

/-! ## Ordered maps -/

/-- The entries are the map that has these values under its keys, in the order of the bytes of the
keys. -/
structure ShowsMap (e : Entries Value) (bound : String → Option Value) : Prop where
  distinct : e.keys.Nodup
  keys : e.keys.Pairwise fun key next => utf8Bytes key < utf8Bytes next
  entries : e.toList.Pairwise fun row next => utf8Bytes row.1 < utf8Bytes next.1
  get : ∀ key, e.get? key = bound key
  mem : ∀ key v, (key, v) ∈ e.toList ↔ bound key = some v
  size : e.size = {key | (bound key).isSome}.ncard

theorem showsMap_of_get {e : Entries Value} {bound : String → Option Value}
    (hget : ∀ key, e.get? key = bound key) : ShowsMap e bound := by
  have hnodup : e.keys.Nodup := e.pairwise_keys.imp fun hlt => String.ne_of_lt hlt
  have hrows : e.toList.Pairwise fun row next => utf8Bytes row.1 < utf8Bytes next.1 :=
    e.ascending.imp fun hlt => (lt_iff_utf8Bytes_lt _ _).1 hlt
  refine ⟨hnodup, e.pairwise_utf8Bytes_keys, hrows, hget, fun key v => ?_, ?_⟩
  · rw [← hget, Entries.get?_eq_some_iff]
  · have hset : {key | (bound key).isSome} = (e.keys.toFinset : Set String) := by
      ext key
      rw [List.coe_toFinset]
      show (bound key).isSome = true ↔ key ∈ e.keys
      rw [← hget, ← Entries.contains_iff_mem_keys]
      rfl
    rw [hset, Set.ncard_coe_finset, List.toFinset_card_of_nodup hnodup]
    exact (List.length_map _).symm

/-- Two handles of one container: a change of it shows through both. -/
structure Heap.Alike (h : Heap) (i j : Nat) (ref : ArrayRef) : Prop where
  left : h.handles[i]? = some ref
  right : h.handles[j]? = some ref
  change : ∀ deed, (h.perform (.change ref deed)).view i = some (deed.apply (h.store.entries ref)) ∧
    (h.perform (.change ref deed)).view j = some (deed.apply (h.store.entries ref))

/-- Handles of two containers: a change of one of them does not show through the other. -/
structure Heap.Apart (h : Heap) (i j : Nat) (ref own : ArrayRef) : Prop where
  left : h.handles[i]? = some ref
  right : h.handles[j]? = some own
  ne : ref ≠ own
  change : ∀ deed, (h.perform (.change ref deed)).view j = h.view j ∧
    (h.perform (.change own deed)).view i = h.view i

section Views

variable {h : Heap} {c : Chronicle} {ref own : ArrayRef} {i j : Nat}

theorem Heap.view_of_getElem? (hi : h.handles[i]? = some ref) :
    h.view i = some (h.store.entries ref) := by
  rw [view, hi]
  rfl

theorem Heap.alike (hi : h.handles[i]? = some ref) (hj : h.handles[j]? = some ref)
    (href : Has h.store ref) : h.Alike i j ref := by
  refine ⟨hi, hj, fun deed => ?_⟩
  have hentries := entries_perform href (.change ref deed)
  rw [Request.effect, if_pos rfl] at hentries
  rw [← hentries]
  exact ⟨view_of_getElem? hi, view_of_getElem? hj⟩

theorem Heap.apart (hi : h.handles[i]? = some ref) (hj : h.handles[j]? = some own)
    (href : Has h.store ref) (hown : Has h.store own) (hne : ref ≠ own) : h.Apart i j ref own := by
  refine ⟨hi, hj, hne, fun deed => ?_⟩
  have hright := entries_perform hown (.change ref deed)
  have hleft := entries_perform href (.change own deed)
  rw [Request.effect, if_neg hne] at hright
  rw [Request.effect, if_neg hne.symm] at hleft
  rw [view_of_getElem? hi, view_of_getElem? hj, ← hright, ← hleft]
  exact ⟨view_of_getElem? hj, view_of_getElem? hi⟩

theorem Heap.getElem?_keep (hi : h.handles[i]? = some ref) (made : ArrayRef × Store) :
    (h.keep made).handles[i]? = some ref ∧
      (h.keep made).handles[h.handles.length]? = some made.1 := by
  constructor
  · rw [keep, List.getElem?_append_left (List.getElem?_eq_some_iff.1 hi).1, hi]
  · exact List.getElem?_concat_length

theorem Heap.apply_clone (hi : h.handles[i]? = some ref) :
    h.apply (.clone i) = h.keep (ref, h.store) := by
  rw [apply, Act.request?, hi]
  rfl

theorem Heap.apply_shallowCopy (hi : h.handles[i]? = some ref) :
    h.apply (.shallowCopy i) = h.keep (h.store.copy ref) := by
  rw [apply, Act.request?, hi]
  rfl

theorem Heap.view_apply (hi : h.handles[i]? = some ref) (href : Has h.store ref) (act : Act) :
    (h.apply act).view i = some (act.effect h.handles ref (h.store.entries ref)) := by
  rw [← entries_apply href]
  exact view_of_getElem? (getElem?_run hi [act])

/-- A clone stays another handle of the same container. -/
theorem Agrees.clone (hc : Agrees h c) (hi : h.handles[i]? = some ref) (later : List Act) :
    ((h.apply (.clone i)).run later).Alike i h.handles.length ref := by
  obtain ⟨hleft, hright⟩ := Heap.getElem?_keep hi (ref, h.store)
  have hlater := (hc.apply (.clone i)).run later
  rw [Heap.apply_clone hi] at hlater ⊢
  have hi' := Heap.getElem?_run hleft later
  exact Heap.alike hi' (Heap.getElem?_run hright later) (hlater.has ref (List.mem_of_getElem? hi'))

/-- A shallow copy stays a container of its own.  What lies under a key is the same in both as long
as nothing happens to it. -/
theorem Agrees.shallowCopy (hc : Agrees h c) (hi : h.handles[i]? = some ref) (later : List Act) :
    let h' := (h.apply (.shallowCopy i)).run later
    let own := (h.store.copy ref).1
    h'.Apart i h.handles.length ref own ∧
    ∃ since, ((c.apply (.shallowCopy i)).run later).events =
        since ++ (c.apply (.shallowCopy i)).events ∧
      ∀ key,
        ((∀ event ∈ since, event.settles ref key = none) →
          (h'.store.entries ref).get? key = (h.store.entries ref).get? key) ∧
        ((∀ event ∈ since, event.settles own key = none) →
          (h'.store.entries own).get? key = (h.store.entries ref).get? key) := by
  intro h' own
  have href : Has h.store ref := hc.has ref (List.mem_of_getElem? hi)
  have hne : ref ≠ own := ne_alloc href _
  have hcopied := hc.apply (.shallowCopy i)
  have hlater : Agrees h' _ := hcopied.run later
  obtain ⟨since, hsince⟩ := (c.apply (.shallowCopy i)).events_run later
  obtain ⟨hleft, hright⟩ := Heap.getElem?_keep hi (h.store.copy ref)
  rw [← Heap.apply_shallowCopy hi] at hleft hright
  have hi' : h'.handles[i]? = some ref := Heap.getElem?_run hleft later
  have hnext : h'.handles[h.handles.length]? = some own := Heap.getElem?_run hright later
  have href' := hlater.has ref (List.mem_of_getElem? hi')
  have hown' := hlater.has own (List.mem_of_getElem? hnext)
  refine ⟨Heap.apart hi' hnext href' hown' hne, since, hsince.symm, fun key => ⟨fun hkey => ?_,
    fun hkey => ?_⟩⟩
  · rw [hcopied.get?_of_settled hlater (hcopied.has ref (List.mem_of_getElem? hleft)) href'
      hsince.symm hkey, Heap.apply_shallowCopy hi]
    exact congrArg (Entries.get? · key) (Store.entries_alloc_of_ne _ _ hne)
  · rw [hcopied.get?_of_settled hlater (hcopied.has own (List.mem_of_getElem? hright)) hown'
      hsince.symm hkey, Heap.apply_shallowCopy hi]
    exact congrArg (Entries.get? · key) (Store.entries_alloc _ _)

theorem Heap.after_append (acts later : List Act) (act : Act) :
    after (acts ++ act :: later) = ((after acts).apply act).run later :=
  List.foldl_append

theorem Chronicle.after_append (acts later : List Act) (act : Act) :
    after (acts ++ act :: later) = ((after acts).apply act).run later :=
  List.foldl_append

end Views

/-- After any operations, every container is a map in the order of the bytes of its keys, and each
key has the value that the last event has left there.  A handle shows of an operation what it does
to the container of the handle.  A clone shows the changes of its original, now and ever after.  A
shallow copy has a container of its own: a change of the copy or its source does not show through
the other, now and ever after, and under each key both hold what the source held, the very same
array if it was one, as long as nothing has happened to the key. -/
theorem arrays_are_ordered_maps (acts : List Act) :
    let heap := Heap.after acts
    let next := heap.handles.length
    (∀ ref, Has heap.store ref →
      ShowsMap (heap.store.entries ref) ((Chronicle.after acts).bound ref)) ∧
    ∀ i ref, heap.handles[i]? = some ref →
      (Has heap.store ref ∧ ∀ act,
        (heap.apply act).view i = some (act.effect heap.handles ref (heap.store.entries ref))) ∧
      (∀ later, (Heap.after (acts ++ .clone i :: later)).Alike i next ref) ∧
      ∃ own, ¬ Has heap.store own ∧ ∀ later,
        let heap' := Heap.after (acts ++ .shallowCopy i :: later)
        heap'.Apart i next ref own ∧
        ∃ since, (Chronicle.after (acts ++ .shallowCopy i :: later)).events =
            since ++ (Chronicle.after (acts ++ [.shallowCopy i])).events ∧
          ∀ key,
            ((∀ event ∈ since, event.settles ref key = none) →
              (heap'.store.entries ref).get? key = (heap.store.entries ref).get? key) ∧
            ((∀ event ∈ since, event.settles own key = none) →
              (heap'.store.entries own).get? key = (heap.store.entries ref).get? key) := by
  intro heap next
  have hagrees := Agrees.after acts
  refine ⟨fun ref href => showsMap_of_get (hagrees.bound ref href), fun i ref hi => ?_⟩
  have href : Has heap.store ref := hagrees.has ref (List.mem_of_getElem? hi)
  refine ⟨⟨href, Heap.view_apply hi href⟩, fun later => ?_, (heap.store.copy ref).1,
    Nat.lt_irrefl _, fun later => ?_⟩
  · rw [Heap.after_append]
    exact hagrees.clone hi later
  · rw [Heap.after_append, Chronicle.after_append, Chronicle.after_append]
    exact hagrees.shallowCopy hi later

/-- The first array is changed through its clone, and its copy is not. -/
example :
    let heap := Heap.after [.new, .insert 0 "é" (.plain (.int 1) rfl), .clone 0, .shallowCopy 0,
      .insert 1 "z" (.handle 2), .insert 1 "e" (.plain (.int 2) rfl), .fetch 0 "z"]
    (heap.view 0).map Entries.keys = some ["e", "z", "é"] ∧ heap.view 1 = heap.view 0 ∧
      (heap.view 2).map Entries.keys = some ["é"] ∧ heap.view 3 = heap.view 2 := by
  decide +kernel

end MacroMachine.Arrays
