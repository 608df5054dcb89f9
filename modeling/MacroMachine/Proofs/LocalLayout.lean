import MacroMachine.Machine.Variables
import MacroMachine.Proofs.Scopes

/-!
# The layout of local variables

While a program is put together, its variables are symbols of the local scope.  When the program is
finished the scope becomes the layout of its frames.  This module says which variables that are and
where they lie.

*Edits.*  Besides the operations there is one more way to change a table: a symbol can be handed out
to be altered (`Edit`).  Names and values of symbols may be altered at will, but not their kinds.

*Which.*  From the time on when the local scope was empty, it collects the variables that are
declared and loses those that are promoted (`Collects`).  So the layout can be told from the kinds
of the symbols: it has those that are still variables of a frame, in the order of their numbers.

*Where.*  Finishing gives each variable its place in the layout as its value (`Places`).
-/

namespace MacroMachine

namespace SymbolTable

variable {t t' : SymbolTable} {id : SymbolId} {symbol : Symbol} {first : Nat}

/-- The symbol is a variable of a frame, and has this place in it. -/
def Places (t : SymbolTable) (id : SymbolId) (offset : Nat) : Prop :=
  ∃ symbol, t.get? id = some symbol ∧ symbol.kind = .frameLocal ∧
    symbol.frameOffset = .ok offset

theorem Places.unique {offset offset' : Nat} (h : t.Places id offset) (h' : t.Places id offset') :
    offset = offset' := by
  obtain ⟨symbol, hget, -, hoffset⟩ := h
  obtain ⟨symbol', hget', -, hoffset'⟩ := h'
  cases hget.symm.trans hget'
  exact Except.ok.inj (hoffset.symm.trans hoffset')

theorem Places.kind? {offset : Nat} (h : t.Places id offset) : t.kind? id = some .frameLocal := by
  obtain ⟨symbol, hget, hkind, -⟩ := h
  rw [kind?_of_get? hget, hkind]

/-! ## Edits -/

/-- What can be done to a symbol table by those who may also alter its symbols. -/
inductive Edit where
  | operation (op : Operation)
  /-- A symbol is altered, so that it is this one from now on. -/
  | alter (id : SymbolId) (symbol : Symbol)

/-- The table after an edit. -/
def Edit.apply (t : SymbolTable) : Edit → SymbolTable
  | .operation op => op.apply t
  | .alter id symbol => t.modify id fun _ => symbol

/-- A symbol is altered in its name and value only. -/
def Edit.KeepsKind (t : SymbolTable) : Edit → Prop
  | .operation _ => True
  | .alter id symbol => ∀ old, t.get? id = some old → symbol.kind = old.kind

/-- The edit ends the local scope. -/
def Edit.EndsScope : Edit → Prop
  | .operation op => op.EndsScope
  | .alter _ _ => False

/-- The table after edits, from the first on. -/
def edited (edits : List Edit) (t : SymbolTable) : SymbolTable :=
  edits.foldl Edit.apply t

/-- Each edit alters at most the name and the value of a symbol. -/
def KeepKinds : List Edit → SymbolTable → Prop
  | [], _ => True
  | edit :: edits, t => edit.KeepsKind t ∧ KeepKinds edits (edit.apply t)

theorem keepKinds_append {edits later : List Edit} :
    KeepKinds (edits ++ later) t ↔ KeepKinds edits t ∧ KeepKinds later (edited edits t) := by
  induction edits generalizing t with
  | nil => exact ⟨fun h => ⟨trivial, h⟩, And.right⟩
  | cons edit edits ih => exact (and_congr_right fun _ => ih).trans and_assoc.symm

theorem sameKinds_alter (h : (Edit.alter id symbol).KeepsKind t) :
    t.SameKinds (t.modify id fun _ => symbol) where
  kinds other := by
    rw [kind?_modify]
    split
    · next hid =>
      subst hid
      cases hold : t.get? other with
      | none => simp [kind?, hold]
      | some old => simp [kind?, hold, h old hold]
    · rfl
  size := t.size_modify id _
  globals := rfl
  locals := rfl

theorem size_le_edit (t : SymbolTable) (edit : Edit) : t.size ≤ (edit.apply t).size := by
  cases edit with
  | operation op => exact (t.change_apply op).size_le
  | alter id symbol => exact Nat.le_of_eq (t.size_modify id _).symm

theorem size_le_edited (edits : List Edit) (t : SymbolTable) :
    t.size ≤ (edited edits t).size := by
  induction edits generalizing t with
  | nil => exact Nat.le_refl _
  | cons edit edits ih => exact Nat.le_trans (t.size_le_edit edit) (ih (edit.apply t))

theorem Scoped.edit (h : t.Scoped) {edit : Edit} (hedit : edit.KeepsKind t)
    (hsize : (edit.apply t).size ≤ 4294967296) : (edit.apply t).Scoped := by
  cases edit with
  | operation op => exact ((t.change_apply op).advances h hsize).1
  | alter id symbol => exact h.sameKinds (sameKinds_alter hedit)

/-- The scopes stay in order as long as the kinds of symbols are not altered. -/
theorem Scoped.edited (h : t.Scoped) {edits : List Edit} (hedits : KeepKinds edits t)
    (hsize : (SymbolTable.edited edits t).size ≤ 4294967296) :
    (SymbolTable.edited edits t).Scoped := by
  induction edits generalizing t with
  | nil => exact h
  | cons edit edits ih =>
    have hnext := Nat.le_trans (size_le_edited edits (edit.apply t)) hsize
    exact ih (h.edit hedits.1 hnext) hedits.2 hsize

/-! ## What the local scope collects -/

/-- The local scope has the variables of frames that were declared since the table had `first`
symbols, and no others. -/
def Collects (first : Nat) (t : SymbolTable) : Prop :=
  ∀ id, id ∈ t.locals ↔ first ≤ id.index.toNat ∧ t.kind? id = some .frameLocal

theorem collects_of_empty (h : t.locals = []) : Collects t.size t := by
  intro id
  rw [h]
  refine iff_of_false List.not_mem_nil fun hboth => ?_
  obtain ⟨symbol, hsymbol, -⟩ := Option.map_eq_some_iff.1 hboth.2
  exact Nat.not_lt_of_le hboth.1 (lt_size_of_get? hsymbol)

namespace Collects

theorem install (h : Collects first t) (hfirst : first ≤ t.size) (hsize : t.size < 4294967296)
    (name : String) (kind : SymbolKind) (value : Value) :
    Collects first (t.install name kind value).2 := by
  intro id
  have hnew : t.kind? t.nextId = none := by
    rw [kind?, get?, toNat_nextId hsize]
    simp [size]
  rw [locals_install, kind?_install hsize]
  by_cases hid : id = t.nextId
  · subst hid
    have hmem : t.nextId ∉ t.locals := by
      rw [h, hnew]
      exact fun hboth => by cases hboth.2
    rw [if_pos rfl, toNat_nextId hsize]
    by_cases hkind : kind = .frameLocal
    · simp [hkind, hfirst]
    · simp [hkind, hmem]
  · rw [if_neg hid, ← h id]
    by_cases hkind : kind = .frameLocal
    · simp [hkind, hid]
    · simp [hkind]

theorem installs (h : Collects first t) (hfirst : first ≤ t.size) (hinstalls : t.Installs t')
    (hsize : t'.size ≤ 4294967296) : Collects first t' := by
  induction hinstalls with
  | done t => exact h
  | count _ _ _ ih => exact ih h hfirst hsize
  | @install t t' name kind value hrest ih =>
    have hle := hrest.size_le
    rw [size_install] at hle
    refine ih (h.install hfirst (by omega) name kind value) ?_ hsize
    rw [size_install]
    omega

/-- A variable that is promoted is none any more. -/
theorem promote (h : Collects first t) (hsymbol : t.get? id = some symbol)
    (hkind : symbol.kind = .frameLocal) : Collects first (t.promote id) := by
  intro other
  have hafter : (t.promote id).kind? other =
      if other = id then some .global else t.kind? other := by
    rw [promote_of_local hsymbol hkind]
    exact (t.kind?_modify _ id other).trans (by rw [hsymbol]; rfl)
  have hlocals : (t.promote id).locals = t.locals.filter (· != id) := by
    rw [promote_of_local hsymbol hkind]
  rw [hafter, hlocals, List.mem_filter, h other]
  by_cases hother : other = id
  · simp [hother]
  · simp [hother]

/-- A symbol that becomes a function was no variable of a frame. -/
theorem define (h : Collects first t) (hscoped : t.Scoped) (hid : id ∈ t.globals)
    (program : ProgramRef) :
    Collects first (t.modify id fun symbol =>
      { symbol with kind := .function, value := .program program }) := by
  intro other
  obtain ⟨symbol, hsymbol, hne⟩ := hscoped.exists_of_mem_globals hid
  rw [kind?_modify]
  by_cases hother : other = id
  · subst hother
    rw [if_pos rfl, hsymbol]
    refine iff_of_false (fun hmem => hne ?_) fun hboth => by cases hboth.2
    have hlocal := hscoped.locals other hmem
    rw [kind?_of_get? hsymbol] at hlocal
    exact Option.some.inj hlocal
  · rw [if_neg hother]
    exact h other

theorem change (h : Collects first t) (hfirst : first ≤ t.size) (hscoped : t.Scoped)
    {op : Operation} (hop : ¬ op.EndsScope) (hchange : t.Change op t')
    (hsize : t'.size ≤ 4294967296) : Collects first t' := by
  cases hchange with
  | installs hinstalls => exact h.installs hfirst hinstalls hsize
  | promotes hsymbol hkind => exact h.promote hsymbol hkind
  | defines program hfound => exact h.define hscoped (List.mem_of_find?_eq_some hfound) program
  | clears hends => exact absurd hends hop

theorem edit (h : Collects first t) (hfirst : first ≤ t.size) (hscoped : t.Scoped) {edit : Edit}
    (hedit : edit.KeepsKind t) (hends : ¬ edit.EndsScope)
    (hsize : (edit.apply t).size ≤ 4294967296) : Collects first (edit.apply t) := by
  cases edit with
  | operation op => exact h.change hfirst hscoped hends (t.change_apply op) hsize
  | alter id symbol =>
    have hsame := sameKinds_alter hedit
    intro other
    rw [show (Edit.apply t (.alter id symbol)).locals = t.locals from hsame.locals,
      show (Edit.apply t (.alter id symbol)).kind? other = t.kind? other from hsame.kinds other]
    exact h other

/-- Edits that do not end the local scope. -/
theorem edited (h : Collects first t) (hfirst : first ≤ t.size) (hscoped : t.Scoped)
    {edits : List Edit} (hedits : KeepKinds edits t) (hends : ∀ edit ∈ edits, ¬ edit.EndsScope)
    (hsize : (SymbolTable.edited edits t).size ≤ 4294967296) :
    Collects first (SymbolTable.edited edits t) := by
  induction edits generalizing t with
  | nil => exact h
  | cons edit edits ih =>
    have hnext := Nat.le_trans (size_le_edited edits (edit.apply t)) hsize
    exact ih (h.edit hfirst hscoped hedits.1 (hends edit List.mem_cons_self) hnext)
      (Nat.le_trans hfirst (t.size_le_edit edit)) (hscoped.edit hedits.1 hnext) hedits.2
      (fun edit hedit => hends edit (List.mem_cons_of_mem _ hedit)) hsize

end Collects

/-! ## Where finishing places the variables -/

/-- Gives each symbol its place in the list, counted from `start`, as its value. -/
def place (ids : List SymbolId) (start : Nat) (t : SymbolTable) : SymbolTable :=
  (ids.zipIdx start).foldl (fun t placed => t.setValue placed.1 (.ofNat placed.2)) t

theorem get?_place_of_notMem (ids : List SymbolId) (start : Nat) (t : SymbolTable)
    (h : id ∉ ids) : (place ids start t).get? id = t.get? id := by
  induction ids generalizing start t with
  | nil => rfl
  | cons head ids ih =>
    have hhead : id ≠ head := fun heq => h (heq ▸ List.mem_cons_self)
    show (place ids (start + 1) (t.setValue head (.ofNat start))).get? id = _
    rw [ih _ _ fun hmem => h (List.mem_cons_of_mem _ hmem)]
    exact t.get?_modify_of_ne _ hhead

theorem get?_place {ids : List SymbolId} (start : Nat) (hnodup : ids.Nodup) {i : Nat}
    (hi : ids[i]? = some id) (hsymbol : t.get? id = some symbol) :
    (place ids start t).get? id = some { symbol with value := .ofNat (start + i) } := by
  induction ids generalizing start t i symbol with
  | nil => cases hi
  | cons head ids ih =>
    obtain ⟨hhead, hrest⟩ := List.nodup_cons.1 hnodup
    show (place ids (start + 1) (t.setValue head (.ofNat start))).get? id = _
    cases i with
    | zero =>
      cases hi
      rw [get?_place_of_notMem _ _ _ hhead]
      exact get?_modify_of_some hsymbol _
    | succ i =>
      have hi : ids[i]? = some id := hi
      have hne : id ≠ head := by
        rintro rfl
        exact hhead (List.mem_of_getElem? hi)
      have hsame : (t.setValue head (.ofNat start)).get? id = some symbol :=
        (t.get?_modify_of_ne _ hne).trans hsymbol
      rw [ih (start + 1) hrest hi hsame, Nat.add_assoc, Nat.add_comm 1]

/-- The number of a place is its value, as long as it is small enough for a number. -/
theorem frameOffset_ofNat (symbol : Symbol) {n : Nat} (h : n < 2147483648) :
    { symbol with value := .ofNat n : Symbol }.frameOffset = .ok n := by
  have hn : (Int32.ofNat n).toInt = n := Int32.toInt_ofNat_of_lt h
  simp only [Symbol.frameOffset, Value.ofNat, hn]
  rw [if_neg (by omega)]
  rfl

end SymbolTable

namespace Assembler

open SymbolTable (Places)

variable {t : SymbolTable} {id : SymbolId} {i : Nat}

/-- The variables of a finished program, by their numbers. -/
theorem declared_finish (a : Assembler) (h : t.Scoped) :
    (a.finish t).1.locals.Pairwise fun older newer => older.index < newer.index :=
  List.pairwise_reverse.2 h.declared

theorem nodup_finish (a : Assembler) (h : t.Scoped) : (a.finish t).1.locals.Nodup :=
  SymbolTable.nodup_of_increasing (a.declared_finish h)

theorem mem_locals_finish {a : Assembler} : id ∈ (a.finish t).1.locals ↔ id ∈ t.locals :=
  List.mem_reverse

/-- Each variable of a finished program has its place in the layout. -/
theorem places_finish (a : Assembler) (h : t.Scoped) (hcount : t.locals.length ≤ 2147483648)
    (hi : (a.finish t).1.locals[i]? = some id) : (a.finish t).2.2.Places id i := by
  obtain ⟨symbol, hsymbol, hkind⟩ :=
    h.exists_of_mem_locals (mem_locals_finish.1 (List.mem_of_getElem? hi))
  have hlt : i < t.locals.length := by
    have hlt := (List.getElem?_eq_some_iff.1 hi).1
    rwa [show (a.finish t).1.locals.length = _ from List.length_reverse] at hlt
  have hplaced := SymbolTable.get?_place (t := t.clearLocals) 0 (a.nodup_finish h) hi hsymbol
  rw [Nat.zero_add] at hplaced
  exact ⟨_, hplaced, hkind, SymbolTable.frameOffset_ofNat symbol (by omega)⟩

/-! ## Too many symbols -/

/-- Every one of many variables gets its place as its value, as far as a number can hold it. -/
theorem finish_declaring (a : Assembler) {n : Nat} (hi : i < n) (hn : n ≤ 4294967296) :
    ∃ id, (a.finish (SymbolTable.after (SymbolTable.declaring .frameLocal n) .empty)).1.locals[i]? =
        some id ∧
      (a.finish (SymbolTable.after (SymbolTable.declaring .frameLocal n) .empty)).2.2.get? id =
        some ⟨"x", .frameLocal, .ofNat i⟩ := by
  have hscoped := (SymbolTable.scoped_empty.after (SymbolTable.declaring .frameLocal n)
    (by rwa [SymbolTable.size_after_declaring])).1
  have hlocals :
      (a.finish (SymbolTable.after (SymbolTable.declaring .frameLocal n) .empty)).1.locals =
        SymbolTable.numbersFrom 0 n := by
    show List.reverse (SymbolTable.locals _) = _
    rw [SymbolTable.locals_after_declaring, if_pos rfl]
    simp [SymbolTable.empty, SymbolTable.size]
  have hid : (SymbolTable.numbersFrom 0 n)[i]? = some ⟨UInt32.ofNat i⟩ := by
    simp [SymbolTable.numbersFrom, hi]
  have hsmall : (UInt32.ofNat i).toNat < n := by
    rwa [UInt32.toNat_ofNat_of_lt' (Nat.lt_of_lt_of_le hi hn)]
  have hplaced := SymbolTable.get?_place
    (t := (SymbolTable.after (SymbolTable.declaring .frameLocal n) .empty).clearLocals) 0
    (a.nodup_finish hscoped) (hlocals ▸ hid) (SymbolTable.get?_after_declaring .frameLocal hsmall)
  rw [Nat.zero_add] at hplaced
  exact ⟨_, hlocals ▸ hid, hplaced⟩

/-- A variable that is declared after others that are global. -/
theorem finish_declaring_global (a : Assembler) {n : Nat} (hn : 0 < n) :
    let t := SymbolTable.after
      (SymbolTable.declaring .global n ++ [.install "y" .frameLocal .unset]) .empty
    (a.finish t).1.locals = [⟨UInt32.ofNat n⟩] ∧
      (a.finish t).2.2.kind? ⟨0⟩ = some .global := by
  have hsize := SymbolTable.size_after_declaring .global n
  have hlocals := SymbolTable.locals_after_declaring .global n .empty
  intro t
  have happend : t = (SymbolTable.install
      (SymbolTable.after (SymbolTable.declaring .global n) .empty) "y" .frameLocal .unset).2 :=
    List.foldl_append
  constructor
  · show List.reverse (SymbolTable.locals t) = _
    rw [happend, SymbolTable.locals_install, if_pos rfl, hlocals, if_neg (by decide),
      SymbolTable.nextId, hsize]
    rfl
  · refine ((SymbolTable.onlyValues_placeLocals _ t.clearLocals).kinds ⟨0⟩).trans ?_
    show t.kind? ⟨0⟩ = _
    have hold : t.get? ⟨0⟩ = some ⟨"x", .global, .unset⟩ := by
      rw [happend, SymbolTable.get?_install, if_neg (by rw [hsize]; exact Nat.ne_of_lt hn)]
      exact SymbolTable.get?_after_declaring .global hn
    rw [SymbolTable.kind?_of_get? hold]

end Assembler

end MacroMachine
