import MacroMachine.Demo
import MacroMachine.Proofs.CompoundAssignment
import MacroMachine.Proofs.FrameRuns
import MacroMachine.Proofs.Iteration
import MacroMachine.Proofs.Staging

/-!
# Arrays that are drained

A loop over the keys of an array that deletes each key as it comes to it:

```text
text = ""
for (key in array) {
    text = text key
    delete array[key]
}
return text
```

An iterator names the key that it yields next, so the key that the body deletes is behind it, and
the loop comes to every key.  This module puts the loop together with an assembler and follows its
code.

*Invariant.*  At the top of the loop the array has the keys that are still to come, the iterator
names the first of them, and the text is what the keys so far make (`Drain.loop_tour`).
-/

namespace MacroMachine

/-- What an operation in two parts has done. -/
theorem Assembly.bind_eq_ok {α β : Type} {x : Assembly α} {f : α → Assembly β} {a c : Assembler}
    {r : β} (h : (x >>= f) a = .ok r c) : ∃ v b, x a = .ok v b ∧ f v b = .ok r c := by
  cases heq : x a with
  | ok v b =>
    refine ⟨v, b, rfl, ?_⟩
    have hbind : (x >>= f) a = f v b := by
      show EStateM.bind x f a = _
      rw [EStateM.bind, heq]
    exact hbind.symm.trans h
  | error e b =>
    have hbind : (x >>= f) a = .error e b := by
      show EStateM.bind x f a = _
      rw [EStateM.bind, heq]
    cases hbind.symm.trans h

theorem Assembly.get_bind {β : Type} (f : Assembler → Assembly β) (a : Assembler) :
    ((get : Assembly Assembler) >>= f) a = f a a :=
  rfl

theorem CodeAddress.holds_of_getElem? {a : CodeAddress} {slots : List Instruction}
    (h : ∀ j, j < slots.length → a.program.program.code[a.index + j]? = slots[j]?) :
    a.Holds slots := by
  induction slots generalizing a with
  | nil => trivial
  | cons slot slots ih =>
    refine ⟨h 0 (Nat.zero_lt_succ _), ih fun j hj => ?_⟩
    have hnext := h (j + 1) (Nat.succ_lt_succ hj)
    rwa [← Nat.add_assoc, Nat.add_right_comm] at hnext

/-- Code that lies somewhere holds its pieces further on. -/
theorem CodeAddress.Holds.piece {a : CodeAddress} {position : Nat} {code slots : List Instruction}
    (h : (a.jump position).Holds code) (skipped : Nat) (hslots : slots <+: code.drop skipped) :
    (a.jump (position + skipped)).Holds slots := by
  induction skipped generalizing position code with
  | zero =>
    obtain ⟨rest, rfl⟩ := hslots
    exact (holds_append_iff.1 h).1
  | succ skipped ih =>
    cases code with
    | nil =>
      cases List.prefix_nil.1 hslots
      trivial
    | cons slot code =>
      have hrest : (a.jump (position + 1)).Holds code := h.2
      have hpiece := ih hrest hslots
      rwa [Nat.add_right_comm] at hpiece

namespace Drain

open Assembler (relative)

/-! ## The code -/

/-- The symbols that the loop refers to. -/
structure Names where
  /-- The constant for the text without characters. -/
  blank : SymbolId
  text : SymbolId
  key : SymbolId
  array : SymbolId
  iterator : SymbolId

namespace Names

variable (n : Names)

/-- The text is blank and the iterator is made. -/
def opening : List Instruction :=
  [.op .pushSymbol, .symbol n.blank, .op .assign, .symbol n.text,
    .op .pushSymbol, .symbol n.array, .op .beginIteration, .symbol n.iterator]

/-- The top of the loop, but for its exit. -/
def top : List Instruction :=
  [.op .iterate, .symbol n.key, .symbol n.iterator]

/-- The body of the loop and the way back to its top, but for the distance. -/
def body : List Instruction :=
  [.op .pushSymbol, .symbol n.text, .op .pushSymbol, .symbol n.key, .op .concat,
    .op .assign, .symbol n.text,
    .op .pushArray, .symbol n.array, .immediate 0, .op .pushSymbol, .symbol n.key,
    .op .deleteElement, .immediate 1, .op .branch]

def closing : List Instruction :=
  [.op .pushSymbol, .symbol n.text, .op .returnValue]

/-- Adds the loop to a program. -/
def assemble : Assembly Unit := do
  Demo.emitAll n.opening
  let top := (← get).position
  Demo.emitAll n.top
  let exit ← Assembler.emitBranch none
  Demo.emitAll n.body
  let _ ← Assembler.emitBranch (some top)
  let stop := (← get).position
  Assembler.patch exit stop
  Demo.emitAll n.closing

/-- The slots from the opening to the end of the body, the first one at this position. -/
def looped (first : Nat) (exit : Int64) : List Instruction :=
  n.opening ++ n.top ++ [.immediate exit] ++ n.body ++
    [.immediate (relative (first + 27) (first + 8))]

/-- All slots, the first one at this position. -/
def slots (first : Nat) : List Instruction :=
  n.looped first (relative (first + 11) (first + 28)) ++ n.closing

/-- The exit of the loop is at its place in the code. -/
theorem looped_set (first : Nat) (exit exit' : Int64) :
    (n.looped first exit).set 11 (.immediate exit') = n.looped first exit' :=
  rfl

end Names

theorem emitAll_eq_ok {slots : List Instruction} {a b : Assembler}
    (h : Demo.emitAll slots a = .ok () b) :
    b.code = a.code ++ slots.toArray ∧ b.pending = a.pending := by
  induction slots generalizing a with
  | nil =>
    cases h
    simp
  | cons slot slots ih =>
    obtain ⟨u, a', hfirst, hrest⟩ := Assembly.bind_eq_ok h
    obtain ⟨site, a'', hemit, hpure⟩ := Assembly.bind_eq_ok hfirst
    cases hpure
    obtain ⟨-, rfl⟩ := Assembler.emit_eq_ok hemit
    obtain ⟨hcode, hpending⟩ := ih hrest
    exact ⟨hcode.trans (by simp), hpending⟩

/-- An operand that is added open. -/
theorem emitBranch_none_eq_ok {site : Nat} {a b : Assembler}
    (h : Assembler.emitBranch none a = .ok site b) :
    site = a.code.size ∧ b.code = a.code ++ #[.immediate 0] ∧ b.pending = site :: a.pending := by
  simp only [Assembler.emitBranch] at h
  cases hemit : Assembler.emit (.immediate 0) a with
  | error e a' =>
    rw [hemit] at h
    cases h
  | ok site' a' =>
    obtain ⟨rfl, rfl⟩ := Assembler.emit_eq_ok hemit
    rw [hemit] at h
    cases h
    exact ⟨rfl, rfl, rfl⟩

theorem emitBranch_some_eq_ok {target site : Nat} {a b : Assembler}
    (h : Assembler.emitBranch (some target) a = .ok site b) :
    b.code = a.code ++ #[.immediate (relative a.code.size target)] ∧ b.pending = a.pending := by
  obtain ⟨-, rfl⟩ := Assembler.emit_eq_ok h
  exact ⟨rfl, rfl⟩

theorem patch_eq_ok {site target : Nat} {a b : Assembler}
    (h : Assembler.patch site target a = .ok () b) :
    b.code = a.code.setIfInBounds site (.immediate (relative site target)) ∧
      b.pending = a.pending.filter (· != site) := by
  rw [Assembler.patch] at h
  split at h
  · cases h
    exact ⟨rfl, rfl⟩
  · cases h

/-- The loop is added as a whole, and no operand in it stays open. -/
theorem assemble_eq_ok {n : Names} {a b : Assembler} (h : n.assemble a = .ok () b) :
    b.code = a.code ++ (n.slots a.code.size).toArray ∧
      ∀ site ∈ b.pending, site ∈ a.pending := by
  obtain ⟨_, a₁, h₁, h⟩ := Assembly.bind_eq_ok h
  obtain ⟨hcode₁, hpending₁⟩ := emitAll_eq_ok h₁
  rw [Assembly.get_bind] at h
  obtain ⟨_, a₂, h₂, h⟩ := Assembly.bind_eq_ok h
  obtain ⟨hcode₂, hpending₂⟩ := emitAll_eq_ok h₂
  obtain ⟨exit, a₃, h₃, h⟩ := Assembly.bind_eq_ok h
  obtain ⟨hexit, hcode₃, hpending₃⟩ := emitBranch_none_eq_ok h₃
  obtain ⟨_, a₄, h₄, h⟩ := Assembly.bind_eq_ok h
  obtain ⟨hcode₄, hpending₄⟩ := emitAll_eq_ok h₄
  obtain ⟨_, a₅, h₅, h⟩ := Assembly.bind_eq_ok h
  obtain ⟨hcode₅, hpending₅⟩ := emitBranch_some_eq_ok h₅
  rw [Assembly.get_bind] at h
  obtain ⟨_, a₆, h₆, h⟩ := Assembly.bind_eq_ok h
  obtain ⟨hcode₆, hpending₆⟩ := patch_eq_ok h₆
  obtain ⟨hcode, hpending⟩ := emitAll_eq_ok h
  constructor
  · have htop : a₁.position = a.code.size + 8 := by
      rw [Assembler.position, hcode₁, Array.size_append]
      rfl
    have hsite : exit = a.code.size + 11 := by
      rw [hexit, hcode₂, Array.size_append, ← Assembler.position, htop]
      rfl
    have hback : a₄.code.size = a.code.size + 27 := by
      rw [hcode₄, hcode₃, Array.size_append, Array.size_append, ← hexit, hsite]
      rfl
    have hstop : a₅.position = a.code.size + 28 := by
      rw [Assembler.position, hcode₅, Array.size_append, hback]
      rfl
    have hopen : a₅.code = a.code ++ (n.looped a.code.size 0).toArray := by
      rw [hcode₅, hback, htop, hcode₄, hcode₃, hcode₂, hcode₁]
      simp only [Names.looped, Array.append_assoc, List.append_toArray, List.append_assoc]
    rw [hcode, hcode₆, hopen, hsite, hstop, Array.setIfInBounds_append_right (by omega),
      Nat.add_sub_cancel_left, List.setIfInBounds_toArray, Names.looped_set, Array.append_assoc]
    simp only [List.append_toArray, Names.slots]
  · intro site hsite
    rw [hpending, hpending₆, hpending₅, hpending₄, hpending₃, hpending₂, hpending₁] at hsite
    obtain ⟨hmem, hne⟩ := List.mem_filter.1 hsite
    rcases List.mem_cons.1 hmem with rfl | hmem
    · simp at hne
    · exact hmem

/-- The code of the loop lies in the program of a macro, the first slot at this position. -/
structure Laid (n : Names) (home : State) (first : Nat) : Prop where
  opening : (home.context.pc.jump first).Holds n.opening
  top : (home.context.pc.jump (first + 8)).Holds n.top
  exit : home.context.pc.program.program.BranchesTo (first + 11) (first + 28)
  body : (home.context.pc.jump (first + 12)).Holds n.body
  back : home.context.pc.program.program.BranchesTo (first + 27) (first + 8)
  closing : (home.context.pc.jump (first + 28)).Holds n.closing
  size : home.context.pc.program.program.size = first + 31

/-- A program that was finished with the loop holds its code. -/
theorem laid_of_assemble {n : Names} {a b : Assembler} {t : SymbolTable} {home : State}
    (ha : a.WellFormed) (h : n.assemble a = .ok () b)
    (hprogram : home.context.pc.program.program = (b.finish t).1)
    (hsize : (b.finish t).1.size < 4611686018427387904) : Laid n home a.code.size := by
  obtain ⟨hcode, hpending⟩ := assemble_eq_ok h
  have hslots : (home.context.pc.jump a.code.size).Holds (n.slots a.code.size) := by
    refine CodeAddress.holds_of_getElem? fun j hj => ?_
    have hnotMem : a.code.size + j ∉ b.pending := fun hmem =>
      Nat.not_lt_of_le (Nat.le_add_right _ _)
        (Assembler.lt_of_isBranchSite (ha.unresolved _ (hpending _ hmem)))
    have hslot : (b.finish t).1.code[a.code.size + j]? = b.code[a.code.size + j]? :=
      (Assembler.getElem?_resolved b.code.size b.pending b.code (a.code.size + j)).trans
        (if_neg fun hboth => hnotMem hboth.1)
    rw [← hprogram, hcode, Array.getElem?_append_right (Nat.le_add_right _ _),
      Nat.add_sub_cancel_left] at hslot
    exact hslot.trans List.getElem?_toArray
  have hlength : home.context.pc.program.program.size = a.code.size + 31 := by
    rw [hprogram, Program.size, Assembler.size_finish, hcode, Array.size_append]
    rfl
  obtain ⟨hlooped, hclosing⟩ := CodeAddress.holds_append_iff.1 hslots
  obtain ⟨hlooped, hback⟩ := CodeAddress.holds_append_iff.1 hlooped
  obtain ⟨hlooped, hbody⟩ := CodeAddress.holds_append_iff.1 hlooped
  obtain ⟨hlooped, hexit⟩ := CodeAddress.holds_append_iff.1 hlooped
  obtain ⟨hopening, htop⟩ := CodeAddress.holds_append_iff.1 hlooped
  rw [← hprogram] at hsize
  exact ⟨hopening, htop,
    Program.branchesTo_of_distance hexit.1 (toInt_relative (by omega) (by omega)), hbody,
    Program.branchesTo_of_distance hback.1 (toInt_relative (by omega) (by omega)), hclosing,
    hlength⟩

/-! ## The run -/

/-- Where the variables of the loop lie in the frame. -/
structure Offsets where
  text : Nat
  key : Nat
  array : Nat
  iterator : Nat

/-- The variables of the loop are variables of the frame, each with a slot of its own. -/
structure Placed (n : Names) (home : State) (o : Offsets) : Prop where
  text : home.HasLocal n.text o.text
  key : home.HasLocal n.key o.key
  array : home.HasLocal n.array o.array
  iterator : home.HasLocal n.iterator o.iterator
  distinct : [o.text, o.key, o.array, o.iterator].Nodup

theorem Placed.ne {n : Names} {home : State} {o : Offsets} (h : Placed n home o) :
    (o.text ≠ o.key ∧ o.text ≠ o.array ∧ o.text ≠ o.iterator) ∧
      (o.key ≠ o.array ∧ o.key ≠ o.iterator) ∧ o.array ≠ o.iterator := by
  simpa [not_or] using h.distinct

/-- What a variable holds, seen only at one place in the code. -/
def look (mark offset : Nat) (s : State) : Option Value :=
  if s.context.pc.index = mark then (s.context.localValue offset).toOption else none

section Run

variable {n : Names} {home s : State} {first position offset mark : Nat} {o : Offsets}
  {locals : Nat → Value} {operands : List Value} {store : Store} {ref : ArrayRef}
  {text key : String}

theorem look_of_ne (h : home.Stands position locals operands store s) (hne : position ≠ mark) :
    look mark offset s = none := by
  have hindex : s.context.pc.index = position := congrArg CodeAddress.index h.pc
  rw [look, if_neg (hindex ▸ hne)]

theorem look_of_mark (h : home.Stands mark locals operands store s)
    (ho : offset < home.context.pc.program.program.locals.length) :
    look mark offset s = some (locals offset) := by
  have hindex : s.context.pc.index = mark := congrArg CodeAddress.index h.pc
  rw [look, if_pos hindex, h.localValue ho]
  rfl

theorem evaluates_concat (host : Host) (left right : String) (store : Store) :
    Evaluates host .concat [] [.text left, .text right] store
      (.ok ([.text (left ++ right)], store)) :=
  .of_operator rfl (fun _ => rfl)
    (.pop [.text left] (.convert rfl (.pop [] (.convert rfl (.deliver _)))))

/-- The body of the loop adds the key to the text and deletes it from the array. -/
theorem body_tour (host : Host) (hlaid : Laid n home first) (hplaced : Placed n home o)
    (hroom : home.context.stack.size + 2 ≤ home.context.limit)
    (hs : home.Stands (first + 12) locals [] store s) (htext : locals o.text = .text text)
    (hkey : locals o.key = .text key) (harray : locals o.array = .array ref) :
    ∃ t, host.Tour (look (first + 12) o.key) s [.text key] t ∧
      home.Stands (first + 8) (Function.update locals o.text (.text (text ++ key))) []
        (store.erase ref key) t := by
  obtain ⟨⟨htk, hta, -⟩, -, -⟩ := hplaced.ne
  have hfits : ∀ count, count ≤ 2 → home.context.stack.size + count ≤ home.context.limit :=
    fun count hcount => by omega
  -- text = text key
  obtain ⟨s₁, hmoves₁, hs₁⟩ := hs.pushLocal host (hlaid.body.piece 0 ⟨_, rfl⟩) hplaced.text
    (by rw [htext]; rfl) (hfits _ (by simp))
  obtain ⟨s₂, hmoves₂, hs₂⟩ := hs₁.pushLocal host (hlaid.body.piece 2 ⟨_, rfl⟩) hplaced.key
    (by rw [hkey]; rfl) (hfits _ (by simp))
  rw [htext, hkey] at hs₂
  obtain ⟨s₃, hmoves₃, hs₃⟩ := hs₂.evaluates [] (evaluates_concat host text key store)
    (hlaid.body.piece 4 ⟨_, rfl⟩) (hfits _ (by simp))
  obtain ⟨s₄, hmoves₄, hs₄⟩ := hs₃.assignLocal host [] (hlaid.body.piece 5 ⟨_, rfl⟩)
    hplaced.text rfl
    (hfits _ (by simp))
  -- delete array[key]
  obtain ⟨s₅, hmoves₅, hs₅⟩ := hs₄.pushArray host (hlaid.body.piece 7 ⟨_, rfl⟩) hplaced.array
    ((Function.update_of_ne hta.symm _ _).trans harray) (hfits _ (by simp))
  obtain ⟨s₆, hmoves₆, hs₆⟩ := hs₅.pushLocal host (hlaid.body.piece 10 ⟨_, rfl⟩) hplaced.key
    (by rw [Function.update_of_ne htk.symm, hkey]; rfl) (hfits _ (by simp))
  rw [Function.update_of_ne htk.symm, hkey] at hs₆
  obtain ⟨s₇, hmoves₇, hs₇⟩ := hs₆.evaluates []
    (evaluates_deleteElement host ref store (List.cons_ne_nil _ _) rfl rfl)
    (hlaid.body.piece 12 ⟨_, rfl⟩) (hfits _ (by simp))
  have hbranch : (home.context.pc.jump (first + 26)).Holds [.op .branch] :=
    hlaid.body.piece 14 ⟨_, rfl⟩
  obtain ⟨s₈, hmoves₈, hs₈⟩ := hs₇.branch host hbranch.1 hlaid.back (by rw [hlaid.size]; omega)
    (hfits _ (by simp))
  refine ⟨s₈, ?_, hs₈⟩
  have hseen : look (first + 12) o.key s = some (.text key) :=
    (look_of_mark hs hplaced.key.lt).trans (congrArg some hkey)
  have hrest : host.Tour (look (first + 12) o.key) s₁ [] s₈ :=
    .unseen (look_of_ne hs₁ (by omega)) hmoves₂ <| .unseen (look_of_ne hs₂ (by omega)) hmoves₃ <|
    .unseen (look_of_ne hs₃ (by omega)) hmoves₄ <| .unseen (look_of_ne hs₄ (by omega)) hmoves₅ <|
    .unseen (look_of_ne hs₅ (by omega)) hmoves₆ <| .unseen (look_of_ne hs₆ (by omega)) hmoves₇ <|
    .unseen (look_of_ne hs₇ (by omega)) hmoves₈ <| .stay s₈
  have htour := Host.Tour.move hmoves₁ hrest
  rwa [hseen] at htour

/-! ### The keys that are left -/

theorem keyAfter?_of_keys {e : Entries Value} {key : String} {rest : List String}
    (h : e.keys = key :: rest) : e.keyAfter? key = rest.head? := by
  have hpairwise := e.pairwise_keys
  rw [h] at hpairwise
  have habove := (List.pairwise_cons.1 hpairwise).1
  have hself : ¬ decide (key < key) = true := fun hlt => String.lt_irrefl _ (of_decide_eq_true hlt)
  rw [Entries.keyAfter?, h, List.find?_cons_of_neg (p := fun k => decide (key < k)) hself]
  cases rest with
  | nil => rfl
  | cons next rest =>
    exact List.find?_cons_of_pos (by simpa using habove next List.mem_cons_self)

theorem keys_erase_of_keys {e : Entries Value} {key : String} {rest : List String}
    (h : e.keys = key :: rest) : (e.erase key).keys = rest := by
  have hpairwise := e.pairwise_keys
  have hfilter : (e.erase key).keys = e.keys.filter fun k => k != key := by
    rw [Entries.keys, Entries.erase, Entries.keys, List.filter_map]
    rfl
  rw [h] at hpairwise hfilter
  have habove := (List.pairwise_cons.1 hpairwise).1
  rw [hfilter, List.filter_cons_of_neg (by simp)]
  refine List.filter_eq_self.2 fun k hk => ?_
  simpa using (String.ne_of_lt (habove k hk)).symm

theorem eq_empty_of_keys {e : Entries Value} (h : e.keys = []) : e = .empty := by
  obtain ⟨rows, hrows⟩ := e
  cases List.map_eq_nil_iff.1 h
  rfl

/-- Deleting the first key of an array leaves the others. -/
theorem keys_erase {rest : List String} (h : (store.entries ref).keys = key :: rest) :
    ((store.erase ref key).entries ref).keys = rest := by
  have hin : ref.index < store.containers.size := by
    by_contra hout
    have hempty : store.entries ref = .empty := by
      rw [Store.entries, Array.getElem?_eq_none (Nat.le_of_not_lt hout)]
      rfl
    rw [hempty] at h
    cases h
  rw [Store.erase, Store.entries_modify store _ hin]
  exact keys_erase_of_keys h

/-- From its top on, the loop comes to all keys that are left, in their order, and is left with the
array empty. -/
theorem loop_tour (host : Host) (hlaid : Laid n home first) (hplaced : Placed n home o)
    (hroom : home.context.stack.size + 2 ≤ home.context.limit) (rest : List String)
    (hs : home.Stands (first + 8) locals [] store s) (htext : locals o.text = .text text)
    (harray : locals o.array = .array ref)
    (hiterator : locals o.iterator = .iterator ⟨ref, rest.head?⟩)
    (hkeys : (store.entries ref).keys = rest) :
    ∃ t locals' store', host.Tour (look (first + 12) o.key) s (rest.map .text) t ∧
      home.Stands (first + 28) locals' [] store' t ∧
      locals' o.text = .text (text ++ String.join rest) ∧ locals' o.key = .unset ∧
      locals' o.array = .array ref ∧ store'.entries ref = .empty ∧
      ∀ other, other ≠ ref → store'.entries other = store.entries other := by
  obtain ⟨⟨htk, hta, hti⟩, ⟨hka, hki⟩, hai⟩ := hplaced.ne
  have hexit : first + 28 ≤ home.context.pc.program.program.size := by
    rw [hlaid.size]
    omega
  have hfits : home.context.stack.size + ([] : List Value).length ≤ home.context.limit := by
    rw [List.length_nil]
    omega
  induction rest generalizing locals store s text with
  | nil =>
    have hnext : Iterator.next ⟨ref, none⟩ store = .ok (none, ⟨ref, none⟩) :=
      Iterator.next_eq_none.2 ⟨rfl, rfl⟩
    obtain ⟨t, hmoves, ht⟩ := hs.iterate host hlaid.top hlaid.exit hexit hplaced.key
      hplaced.iterator hiterator hnext hfits
    have hempty : String.join [] = "" := rfl
    refine ⟨t, _, store, .unseen (look_of_ne hs (by omega)) hmoves (.stay t), ht, ?_,
      State.Stands.turned_item hki _, ?_, eq_empty_of_keys hkeys, fun _ _ => rfl⟩
    · rw [hempty, String.append_empty]
      exact (State.Stands.turned_of_ne htk hti _).trans htext
    · exact (State.Stands.turned_of_ne hka.symm hai _).trans harray
  | cons key rest ih =>
    have hnext : Iterator.next ⟨ref, some key⟩ store = .ok (some key, ⟨ref, rest.head?⟩) := by
      refine Iterator.next_eq_some.2 ⟨rfl, Entries.contains_iff_mem_keys.2 ?_, ?_⟩
      · rw [hkeys]
        exact List.mem_cons_self
      · rw [keyAfter?_of_keys hkeys]
    obtain ⟨u, hmoves, hu⟩ := hs.iterate host hlaid.top hlaid.exit hexit hplaced.key
      hplaced.iterator hiterator hnext hfits
    -- what the body finds: the key, and everything else as before
    have hother : ∀ i, i ≠ o.key → i ≠ o.iterator →
        Function.update (State.Stands.turned locals o.key o.iterator ⟨ref, rest.head?⟩) o.key
          (.text key) i = locals i := fun i hk hi =>
      (Function.update_of_ne hk _ _).trans (State.Stands.turned_of_ne hk hi _)
    obtain ⟨v, hbody, hv⟩ := body_tour host hlaid hplaced hroom hu
      ((hother _ htk hti).trans htext) (Function.update_self ..)
      ((hother _ hka.symm hai).trans harray)
    obtain ⟨t, locals', store', htour, ht, htext', hkey', harray', hstore', hothers⟩ :=
      ih hv (Function.update_self ..)
        ((Function.update_of_ne hta.symm _ _).trans ((hother _ hka.symm hai).trans harray))
        ((Function.update_of_ne hti.symm _ _).trans
          ((Function.update_of_ne hki.symm _ _).trans (State.Stands.turned_place ..)))
        (keys_erase hkeys)
    refine ⟨t, locals', store', .unseen (look_of_ne hs (by omega)) hmoves (hbody.trans htour), ht,
      ?_, hkey', harray', hstore', fun other hne => ?_⟩
    · rw [htext', String.join_cons, String.append_assoc]
    · rw [hothers other hne]
      exact Store.entries_modify_of_ne store _ hne

/-- The opening leads to the top of the loop. -/
theorem opening_tour (host : Host) {name : String} (hlaid : Laid n home first)
    (hplaced : Placed n home o)
    (hblank : home.world.symbols.get? n.blank = some ⟨name, .constant, .text ""⟩)
    (hroom : home.context.stack.size + 2 ≤ home.context.limit)
    (hs : home.Stands first locals [] store s) (harray : locals o.array = .array ref) :
    ∃ t, host.Tour (look (first + 12) o.key) s [] t ∧
      home.Stands (first + 8) (Function.update (Function.update locals o.text (.text "")) o.iterator
        (.iterator (store.iterate ref))) [] store t := by
  have hfits : ∀ count, count ≤ 2 → home.context.stack.size + count ≤ home.context.limit :=
    fun count hcount => by omega
  obtain ⟨s₁, hmoves₁, hs₁⟩ := hs.pushConstant host (hlaid.opening.piece 0 ⟨_, rfl⟩) hblank rfl
    (hfits _ (by simp))
  obtain ⟨s₂, hmoves₂, hs₂⟩ := hs₁.assignLocal host [] (hlaid.opening.piece 2 ⟨_, rfl⟩)
    hplaced.text rfl (hfits _ (by simp))
  have hvalue : Function.update locals o.text (.text "") o.array = .array ref :=
    (Function.update_of_ne hplaced.ne.1.2.1.symm _ _).trans harray
  obtain ⟨s₃, hmoves₃, hs₃⟩ := hs₂.pushLocal host (hlaid.opening.piece 4 ⟨_, rfl⟩) hplaced.array
    (by rw [hvalue]; rfl) (hfits _ (by simp))
  rw [hvalue] at hs₃
  obtain ⟨s₄, hmoves₄, hs₄⟩ := hs₃.beginIteration host [] (hlaid.opening.piece 6 ⟨_, rfl⟩)
    hplaced.iterator (hfits _ (by simp))
  refine ⟨s₄, ?_, hs₄⟩
  exact .unseen (look_of_ne hs (by omega)) hmoves₁ <|
    .unseen (look_of_ne hs₁ (by omega)) hmoves₂ <|
    .unseen (look_of_ne hs₂ (by omega)) hmoves₃ <|
    .unseen (look_of_ne hs₃ (by omega)) hmoves₄ <| .stay s₄

/-- From the opening on, the loop comes to all keys of the array. -/
theorem drains_tour (host : Host) {name : String} (hlaid : Laid n home first)
    (hplaced : Placed n home o)
    (hblank : home.world.symbols.get? n.blank = some ⟨name, .constant, .text ""⟩)
    (hroom : home.context.stack.size + 2 ≤ home.context.limit)
    (hs : home.Stands first locals [] store s) (harray : locals o.array = .array ref) :
    ∃ t locals' store',
      host.Tour (look (first + 12) o.key) s ((store.entries ref).keys.map .text) t ∧
      home.Stands (first + 28) locals' [] store' t ∧
      locals' o.text = .text (String.join (store.entries ref).keys) ∧ locals' o.key = .unset ∧
      locals' o.array = .array ref ∧ store'.entries ref = .empty ∧
      ∀ other, other ≠ ref → store'.entries other = store.entries other := by
  obtain ⟨⟨-, hta, hti⟩, -, hai⟩ := hplaced.ne
  obtain ⟨u, hopening, hu⟩ := opening_tour host hlaid hplaced hblank hroom hs harray
  have htext := (Function.update_of_ne hti (.iterator (store.iterate ref))
    (Function.update locals o.text (.text ""))).trans (Function.update_self ..)
  have harray' := (Function.update_of_ne hai (.iterator (store.iterate ref))
    (Function.update locals o.text (.text ""))).trans
      ((Function.update_of_ne hta.symm _ _).trans harray)
  obtain ⟨t, locals', store', hloop, ht, htext', hrest⟩ :=
    loop_tour host hlaid hplaced hroom _ hu htext harray' (Function.update_self ..) rfl
  rw [String.empty_append] at htext'
  exact ⟨t, locals', store', hopening.trans hloop, ht, htext', hrest⟩

/-- Behind the loop the macro returns the text. -/
theorem closing_comesTo (host : Host) (hlaid : Laid n home first) (hplaced : Placed n home o)
    (houter : home.context.Outermost) (hfp : home.context.fp ≤ home.context.stack.size)
    (hroom : home.context.stack.size + 2 ≤ home.context.limit)
    (hs : home.Stands (first + 28) locals [] store s) (htext : locals o.text = .text text) :
    ∃ world, host.ComesTo s (.done (.text text)) world ∧ world.store = store := by
  obtain ⟨t, hmoves, ht⟩ := hs.pushLocal host (hlaid.closing.piece 0 ⟨_, rfl⟩) hplaced.text
    (by rw [htext]; rfl) (by rw [List.length_nil]; omega)
  rw [htext] at ht
  have hreturn : (home.context.pc.jump (first + 28 + 2)).Holds [.op .returnValue] :=
    hlaid.closing.piece 2 ⟨_, rfl⟩
  obtain ⟨world, hends, hworld⟩ := ht.returns host [] hreturn.1 houter hfp
  exact ⟨world, hends.move hmoves, hworld⟩

end Run

/-! ## Drained arrays -/

/-- The variables of the loop. -/
def Names.locals (n : Names) : List SymbolId :=
  [n.text, n.key, n.array, n.iterator]

/-- Where the variables of the loop lie in the frames of a program. -/
def Names.offsets (n : Names) (p : Program) : Offsets where
  text := p.locals.idxOf n.text
  key := p.locals.idxOf n.key
  array := p.locals.idxOf n.array
  iterator := p.locals.idxOf n.iterator

/-- A macro is about to run the loop, in its outermost frame: its program has the loop at this
position, the variables of the loop are four local variables of the program whose symbols are as the
program was finished with them, there is room for two operands, and the array is this one. -/
structure Ready (n : Names) (p : Program) (t : SymbolTable) (first : Nat) (ref : ArrayRef)
    (home : State) : Prop where
  program : home.context.pc.program.program = p
  index : home.context.pc.index = first
  outermost : home.context.Outermost
  inside : home.context.fp + p.locals.length ≤ home.context.stack.size
  room : home.context.stack.size + 2 ≤ home.context.limit
  declared : ∀ id ∈ n.locals, id ∈ p.locals
  distinct : n.locals.Nodup
  symbols : ∀ id ∈ n.locals, home.world.symbols.get? id = t.get? id
  blank : ∃ name, home.world.symbols.get? n.blank = some ⟨name, .constant, .text ""⟩
  array : home.context.localValue (n.offsets p).array = .ok (.array ref)

/-- The loop is behind: the array is still in its variable but has no keys, no other container has
changed, and the variable for the key has no value. -/
structure Drained (o : Offsets) (ref : ArrayRef) (before : Store) (exit : Nat) (text : String)
    (s : State) : Prop where
  index : s.context.pc.index = exit
  text : s.context.localValue o.text = .ok (.text text)
  key : s.context.localValue o.key = .ok .unset
  array : s.context.localValue o.array = .ok (.array ref)
  empty : s.world.store.entries ref = .empty
  others : ∀ other, other ≠ ref → s.world.store.entries other = before.entries other

theorem Ready.placed {n : Names} {a : Assembler} {t : SymbolTable} {first : Nat} {ref : ArrayRef}
    {home : State} (h : Ready n (a.finish t).1 (a.finish t).2.2 first ref home) (ht : t.Scoped)
    (hcount : t.locals.length ≤ 2147483648) : Placed n home (n.offsets (a.finish t).1) := by
  have hlocal : ∀ id ∈ n.locals, home.HasLocal id ((a.finish t).1.locals.idxOf id) := by
    intro id hid
    have hlt := List.idxOf_lt_length_of_mem (h.declared id hid)
    obtain ⟨symbol, hget, hsymbol⟩ := a.places_finish ht hcount
      (List.getElem?_eq_some_iff.2 ⟨hlt, List.getElem_idxOf hlt⟩)
    exact ⟨⟨symbol, (h.symbols id hid).trans hget, hsymbol⟩, h.program ▸ hlt⟩
  refine ⟨hlocal _ (by simp [Names.locals]), hlocal _ (by simp [Names.locals]),
    hlocal _ (by simp [Names.locals]), hlocal _ (by simp [Names.locals]), ?_⟩
  have hmap : (n.locals.map (a.finish t).1.locals.idxOf).Nodup :=
    h.distinct.map_on fun id hid id' _ heq => (List.idxOf_inj (h.declared id hid)).1 heq
  exact hmap

/-- The loop comes to each key of the array once. -/
theorem visits_each_key_once (host : Host) (limits : AssemblerLimits)
    (ops : List Assembler.Operation) (tableOps : List SymbolTable.Operation) {n : Names}
    {built : Assembler} {home : State} {ref : ArrayRef} :
    let before := Assembler.after limits ops
    let table := SymbolTable.after tableOps .empty
    let p := (built.finish table).1
    let keys := (home.world.store.entries ref).keys
    n.assemble before = .ok () built → table.size ≤ 4294967296 →
    table.locals.length ≤ 2147483648 → p.size < 4611686018427387904 →
    Ready n p (built.finish table).2.2 before.position ref home →
    keys.Pairwise (fun key next => utf8Bytes key < utf8Bytes next) ∧
    ∃ exit world,
      host.Tour (look (before.position + 12) (n.offsets p).key) home (keys.map .text) exit ∧
      Drained (n.offsets p) ref home.world.store (before.position + 28) (String.join keys) exit ∧
      host.ComesTo exit (.done (.text (String.join keys))) world ∧
      host.ComesTo home (.done (.text (String.join keys))) world ∧
      world.store = exit.world.store := by
  intro before table p keys hassemble hsize hcount hlength hready
  have hscoped : table.Scoped := (SymbolTable.scoped_empty.after tableOps hsize).1
  have hplaced := hready.placed hscoped hcount
  have hlaid : Laid n home before.position :=
    laid_of_assemble (Assembler.wellFormed_after limits ops).1 hassemble hready.program hlength
  obtain ⟨name, hblank⟩ := hready.blank
  have hinside : home.context.fp + home.context.pc.program.program.locals.length ≤
      home.context.stack.size := hready.program ▸ hready.inside
  -- what the local variables hold
  let locals : Nat → Value := fun i => home.context.stack[home.context.fp + i]?.getD .unset
  have hlocals : ∀ i, i < home.context.pc.program.program.locals.length →
      home.context.stack[home.context.fp + i]? = some (locals i) := by
    intro i hi
    have hlt : home.context.fp + i < home.context.stack.size := by omega
    simp only [locals, Array.getElem?_eq_getElem hlt, Option.getD_some]
  have hstart := State.stands_self (Nat.le_trans (Nat.le_add_right _ 2) hready.room) hlocals
  rw [hready.index] at hstart
  have harray : locals (n.offsets p).array = .array ref :=
    Except.ok.inj ((hstart.localValue hplaced.array.lt).symm.trans hready.array)
  obtain ⟨t, locals', store', htour, ht, htext, hkey, harray', hempty, hothers⟩ :=
    drains_tour host hlaid hplaced hblank hready.room hstart harray
  obtain ⟨world, hends, hworld⟩ := closing_comesTo host hlaid hplaced hready.outermost
    (by omega) hready.room ht htext
  have hstore := ht.store_eq
  refine ⟨?_, t, world, htour, ⟨congrArg CodeAddress.index ht.pc, ?_, ?_, ?_, ?_, ?_⟩, hends,
    htour.comesTo hends, hworld.trans hstore.symm⟩
  · exact (Entries.pairwise_keys _).imp fun hlt => (lt_iff_utf8Bytes_lt _ _).1 hlt
  · exact htext ▸ ht.localValue hplaced.text.lt
  · exact hkey ▸ ht.localValue hplaced.key.lt
  · exact harray' ▸ ht.localValue hplaced.array.lt
  · rw [hstore, hempty]
  · intro other hother
    rw [hstore, hothers other hother]

namespace Sample

/-- The symbols of a program that is nothing but the loop. -/
def declarations : List SymbolTable.Operation :=
  [.install "array" .frameLocal .unset, .install "text" .frameLocal .unset,
    .install "key" .frameLocal .unset, .installIterator, .internText ""]

def names : Names :=
  ⟨⟨4⟩, ⟨1⟩, ⟨2⟩, ⟨0⟩, ⟨3⟩⟩

def built : Assembler :=
  { Assembler.new {} with code := (names.slots 0).toArray }

def finished : Program × Assembler × SymbolTable :=
  built.finish (.after declarations .empty)

/-- The macro before the loop.  The array has two keys. -/
def home : State where
  world := { (default : World) with
    symbols := finished.2.2
    store := ⟨#[.ofList [("x", .int 1), ("b", .array ⟨0⟩)]]⟩ }
  context :=
    { stack := #[.address none, .frame none, .int 0, .unset, .array ⟨0⟩, .unset, .unset, .unset]
      limit := 10, fp := 4, pc := ⟨⟨0, finished.1⟩, 0⟩, runTarget := none, focusTarget := none }

/-- The assembler that an operation leaves behind, unless it was refused. -/
def made? : EStateM.Result AssemblyError Assembler Unit → Option Assembler
  | .ok _ a => some a
  | .error _ _ => none

end Sample

/-- In slices of one instruction each, the keys come in their order, which is not the order in which
they were stored. -/
theorem visits_each_key_once_of_two :
    Sample.names.assemble (.after {} []) = .ok () Sample.built ∧
    Ready Sample.names Sample.finished.1 Sample.finished.2.2 0 ⟨0⟩ Sample.home ∧
    ∃ exit world,
      Host.Tour ⟨⟨10, some 1⟩, fun _ _ => .idle⟩ (look 12 2) Sample.home [.text "b", .text "x"]
        exit ∧
      Drained ⟨1, 2, 0, 3⟩ ⟨0⟩ Sample.home.world.store 28 "bx" exit ∧
      Host.ComesTo ⟨⟨10, some 1⟩, fun _ _ => .idle⟩ Sample.home (.done (.text "bx")) world ∧
      world.store = exit.world.store := by
  have hassemble : Sample.names.assemble (.after {} []) = .ok () Sample.built := by
    have heval : Sample.made? (Sample.names.assemble (.after {} [])) = some Sample.built := by
      decide +kernel
    cases hresult : Sample.names.assemble (.after {} []) with
    | ok _ a =>
      rw [hresult] at heval
      cases heval
      rfl
    | error _ a =>
      rw [hresult] at heval
      cases heval
  have hready : Ready Sample.names Sample.finished.1 Sample.finished.2.2 0 ⟨0⟩ Sample.home := by
    refine ⟨rfl, rfl, ⟨_, rfl⟩, ?_, ?_, ?_, ?_, ?_, ⟨_, rfl⟩, rfl⟩
    all_goals decide +kernel
  have hmain := visits_each_key_once ⟨⟨10, some 1⟩, fun _ _ => .idle⟩ {} [] Sample.declarations
    hassemble (by decide +kernel) (by decide +kernel) (by decide +kernel) hready
  obtain ⟨-, exit, world, htour, hdrained, -, hends, hstore⟩ := hmain
  exact ⟨hassemble, hready, exit, world, htour, hdrained, hends, hstore⟩

end Drain

end MacroMachine
