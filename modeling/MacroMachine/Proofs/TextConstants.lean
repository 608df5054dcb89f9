import Mathlib.Data.List.Dedup
import Mathlib.Data.List.ReduceOption
import MacroMachine.Proofs.Scopes

/-!
# String constants

Programs refer to string constants by number, so a text must keep its constant for ever, and a text
that is interned again must get the constant that it has.  This module shows both for tables after
any operations that make string constants by interning only.

*The row of texts.*  What matters of a table is which of its symbols are string constants and what
these hold, symbol by symbol (`textRow`).  An operation leaves this row as it is or adds to its end,
and it adds a text only if it interns one that the row lacks (`Interning.addsTexts_apply`).

*Names.*  The one operation that could overwrite a string constant is the definition of a function
under its name.  So it is part of the invariant what these names are (`Interning.named`).
-/

namespace MacroMachine

/-- The text of a string constant. -/
def Symbol.constantText? (symbol : Symbol) : Option String :=
  match symbol.kind, symbol.value with
  | .constant, .text s => some s
  | _, _ => none

theorem Symbol.constantText?_eq_some_iff {symbol : Symbol} {text : String} :
    symbol.constantText? = some text ↔ symbol.kind = .constant ∧ symbol.value = .text text := by
  obtain ⟨name, kind, value⟩ := symbol
  cases kind <;> cases value <;> simp [constantText?]

theorem Symbol.constantText?_of_kind_ne {symbol : Symbol} (h : symbol.kind ≠ .constant) :
    symbol.constantText? = none :=
  Option.eq_none_iff_forall_ne_some.2 fun _ htext => h (constantText?_eq_some_iff.1 htext).1

namespace SymbolTable

variable {t t' : SymbolTable} {id : SymbolId} {symbol : Symbol} {text : String}

/-! ## The row of texts -/

/-- What the string constants hold, symbol by symbol. -/
def textRow (t : SymbolTable) : List (Option String) :=
  t.symbols.toList.map Symbol.constantText?

/-- What the string constants hold, one after the other. -/
def texts (t : SymbolTable) : List String :=
  t.symbols.toList.filterMap Symbol.constantText?

/-- What the string constant with a number holds. -/
def textOf? (t : SymbolTable) (id : SymbolId) : Option String :=
  (t.get? id).bind Symbol.constantText?

theorem texts_eq (t : SymbolTable) : t.texts = t.textRow.reduceOption := by
  rw [textRow, List.reduceOption, List.filterMap_map]
  rfl

theorem textOf?_eq_some_iff :
    t.textOf? id = some text ↔ t.textRow[id.index.toNat]? = some (some text) := by
  rw [textRow, List.getElem?_map, Array.getElem?_toList, Option.map_eq_some_iff]
  exact Option.bind_eq_some_iff

theorem mem_texts_of_textOf? (h : t.textOf? id = some text) : text ∈ t.texts := by
  rw [texts_eq, List.reduceOption_mem_iff]
  exact List.mem_of_getElem? (textOf?_eq_some_iff.1 h)

/-- A text stands at one place of a row only if it is one of the texts only once. -/
theorem eq_of_nodup {row : List (Option String)} (h : row.reduceOption.Nodup) {i j : Nat}
    (hi : row[i]? = some (some text)) (hj : row[j]? = some (some text)) : i = j := by
  induction row generalizing i j with
  | nil => cases hi
  | cons first row ih =>
    have hrest : row.reduceOption.Nodup := by
      cases first with
      | none => exact h
      | some first => exact (List.nodup_cons.1 h).2
    have hfirst : ∀ {k : Nat}, first = some text → row[k]? ≠ some (some text) := by
      rintro k rfl hk
      exact (List.nodup_cons.1 h).1 (List.reduceOption_mem_iff.2 (List.mem_of_getElem? hk))
    cases i with
    | zero =>
      cases j with
      | zero => rfl
      | succ j => exact absurd hj (hfirst (Option.some.inj hi))
    | succ i =>
      cases j with
      | zero => exact absurd hi (hfirst (Option.some.inj hj))
      | succ j => exact congrArg Nat.succ (ih hrest hi hj)

/-! ## Changes of the row -/

theorem textRow_install (t : SymbolTable) (name : String) (kind : SymbolKind) (value : Value) :
    (t.install name kind value).2.textRow =
      t.textRow ++ [Symbol.constantText? ⟨name, kind, value⟩] := by
  unfold install
  split <;> simp [textRow]

/-- The second table has the row of texts of the first one and behind it some symbols that hold the
added texts. -/
def AddsTexts (t t' : SymbolTable) (added : List String) : Prop :=
  ∃ new, t'.textRow = t.textRow ++ new ∧ new.reduceOption = added

theorem AddsTexts.of_eq (h : t'.textRow = t.textRow) : t.AddsTexts t' [] :=
  ⟨[], h.trans (List.append_nil _).symm, rfl⟩

theorem AddsTexts.trans {t'' : SymbolTable} {added added' : List String} (h : t.AddsTexts t' added)
    (h' : t'.AddsTexts t'' added') : t.AddsTexts t'' (added ++ added') := by
  obtain ⟨new, hrow, rfl⟩ := h
  obtain ⟨new', hrow', rfl⟩ := h'
  refine ⟨new ++ new', ?_, List.reduceOption_append _ _⟩
  rw [hrow', hrow, List.append_assoc]

theorem addsTexts_install (t : SymbolTable) (name : String) (kind : SymbolKind) (value : Value) :
    t.AddsTexts (t.install name kind value).2 (Symbol.constantText? ⟨name, kind, value⟩).toList :=
  ⟨_, t.textRow_install name kind value, List.reduceOption_singleton _⟩

theorem addsTexts_installArguments (t : SymbolTable) : t.AddsTexts t.installArguments [] := by
  have hrun : ∀ (names : List (String × Int32)) (t : SymbolTable), t.AddsTexts
      (names.foldl (fun t named => (t.install named.1 .argument (.int named.2)).2) t) [] := by
    intro names
    induction names with
    | nil => exact fun t => .of_eq rfl
    | cons named names ih => exact fun t => (t.addsTexts_install _ _ _).trans (ih _)
  exact hrun argumentNames t

/-- Changing a symbol keeps the row if the symbol holds the same text afterwards, or none again. -/
theorem textRow_modify (f : Symbol → Symbol)
    (h : ∀ symbol, t.get? id = some symbol → (f symbol).constantText? = symbol.constantText?) :
    (t.modify id f).textRow = t.textRow := by
  refine List.ext_getElem? fun i => ?_
  simp only [textRow, modify, List.getElem?_map, Array.getElem?_toList, Array.getElem?_modify]
  split
  · next hi =>
    subst hi
    rw [Option.map_map]
    cases hsymbol : t.symbols[id.index.toNat]? with
    | none => rfl
    | some symbol => exact congrArg some (h symbol hsymbol)
  · rfl

theorem textRow_modify_of_none {f : Symbol → Symbol} (hsymbol : t.get? id = some symbol)
    (hbefore : symbol.constantText? = none) (hafter : (f symbol).constantText? = none) :
    (t.modify id f).textRow = t.textRow := by
  refine textRow_modify f fun found hfound => ?_
  rw [hsymbol] at hfound
  cases hfound
  exact hafter.trans hbefore.symm

/-- A promoted symbol is a variable before and afterwards. -/
theorem textRow_promote (t : SymbolTable) (id : SymbolId) : (t.promote id).textRow = t.textRow := by
  cases hsymbol : t.get? id with
  | none => simp only [promote, hsymbol]
  | some symbol =>
    by_cases hkind : symbol.kind = .frameLocal
    · rw [promote_of_local hsymbol hkind]
      refine textRow_modify_of_none hsymbol (Symbol.constantText?_of_kind_ne ?_) rfl
      rw [hkind]
      decide
    · simp only [promote, hsymbol, if_neg hkind]

/-- Placing the variables of a frame touches no string constant. -/
theorem textRow_placeLocals {locals : List SymbolId}
    (h : ∀ id ∈ locals, t.kind? id = some .frameLocal) :
    (Assembler.placeLocals locals t).textRow = t.textRow := by
  have hrun : ∀ (placed : List (SymbolId × Nat)) (t : SymbolTable),
      (∀ place ∈ placed, t.kind? place.1 = some .frameLocal) →
      (placed.foldl (fun t place => t.setValue place.1 (.ofNat place.2)) t).textRow =
        t.textRow := by
    intro placed
    induction placed with
    | nil => exact fun t _ => rfl
    | cons place placed ih =>
      intro t hlocal
      have hkinds := (t.onlyValues_setValue place.1 (.ofNat place.2)).kinds
      refine (ih _ fun other hother => ?_).trans (textRow_modify _ fun symbol hsymbol => ?_)
      · rw [hkinds]
        exact hlocal other (List.mem_cons_of_mem _ hother)
      · have hkind := hlocal place List.mem_cons_self
        rw [kind?_of_get? hsymbol] at hkind
        have hne : symbol.kind ≠ .constant := by
          rw [Option.some.inj hkind]
          decide
        exact (Symbol.constantText?_of_kind_ne (by exact hne)).trans
          (Symbol.constantText?_of_kind_ne hne).symm
  exact hrun locals.zipIdx t fun place hplace => h _ (List.fst_mem_of_mem_zipIdx hplace)

/-! ## Looking texts up -/

theorem isTextConstant_iff : t.isTextConstant text id = true ↔ t.textOf? id = some text := by
  rw [isTextConstant, textOf?]
  cases t.get? id with
  | none => simp
  | some symbol => simp [Symbol.constantText?_eq_some_iff]

theorem textOf?_of_lookupText? (h : t.lookupText? text = some id) : t.textOf? id = some text :=
  isTextConstant_iff.1 (List.find?_some h)

/-- A text is not found only if no constant holds it, since the global scope has every constant. -/
theorem Scoped.notMem_texts (h : t.Scoped) (hsize : t.size ≤ 4294967296)
    (hnone : t.lookupText? text = none) : text ∉ t.texts := by
  intro hmem
  obtain ⟨symbol, hsymbol, htext⟩ := List.mem_filterMap.1 hmem
  obtain ⟨i, hi, hat⟩ := Array.mem_iff_getElem.1 (Array.mem_toList_iff.1 hsymbol)
  have hindex : (UInt32.ofNat i).toNat = i :=
    UInt32.toNat_ofNat_of_lt' (Nat.lt_of_lt_of_le hi hsize)
  have hget : t.get? ⟨UInt32.ofNat i⟩ = some symbol := by
    rw [get?, hindex, Array.getElem?_eq_getElem hi, hat]
  have hkind : symbol.kind ≠ .frameLocal := by
    rw [(Symbol.constantText?_eq_some_iff.1 htext).1]
    decide
  have hglobal := (h.globals ⟨UInt32.ofNat i⟩).2 (isShared_iff.2 ⟨symbol, hget, hkind⟩)
  refine List.find?_eq_none.1 hnone _ hglobal (isTextConstant_iff.2 ?_)
  rw [textOf?, hget]
  exact htext

/-- Interning finds the constant of a text, or makes one if there is none. -/
theorem Scoped.internText_cases (h : t.Scoped) (hsize : t.size ≤ 4294967296) (text : String) :
    (∃ id, text ∈ t.texts ∧ t.textOf? id = some text ∧ t.internText text = (id, t)) ∨
      text ∉ t.texts ∧ t.internText text = { t with textCount := t.textCount + 1 }.install
        ("string #" ++ toString t.textCount) .constant (.text text) := by
  rw [internText]
  cases hfound : t.lookupText? text with
  | some id =>
    have htext := textOf?_of_lookupText? hfound
    exact .inl ⟨id, mem_texts_of_textOf? htext, htext, rfl⟩
  | none => exact .inr ⟨h.notMem_texts hsize hfound, rfl⟩

/-! ## What an operation adds -/

/-- The operation makes no string constant but by interning, and defines no function under a name
that string constants have. -/
def Operation.SparesTexts : Operation → Prop
  | .install _ kind value => ∀ text, ¬ (kind = .constant ∧ value = .text text)
  | .defineFunction name _ => ∀ n : Nat, name ≠ "string #" ++ toString n
  | _ => True

/-- The text that an operation adds to the constants of a table. -/
def Operation.newText? (t : SymbolTable) : Operation → Option String
  | .internText text => if text ∈ t.texts then none else some text
  | _ => none

/-- A table in which texts are interned. -/
structure Interning (t : SymbolTable) : Prop where
  scopes : t.Scoped
  named : ∀ id symbol, t.get? id = some symbol → symbol.constantText? ≠ none →
    ∃ n : Nat, symbol.name = "string #" ++ toString n
  distinct : t.texts.Nodup
  counted : t.texts.length = t.textCount

/-- A function under a name of its own takes no string constant over. -/
theorem Interning.addsTexts_defineFunction (h : t.Interning) {name : String}
    (hname : ∀ n : Nat, name ≠ "string #" ++ toString n) (program : ProgramRef) :
    t.AddsTexts (t.defineFunction name program).2 [] := by
  rw [defineFunction]
  cases hfound : t.findGlobal? name with
  | none => exact t.addsTexts_install name _ _
  | some id =>
    obtain ⟨symbol, hsymbol, -⟩ :=
      h.scopes.exists_of_mem_globals (List.mem_of_find?_eq_some hfound)
    have hsame : symbol.name = name := by
      simpa [isNamed, hsymbol] using List.find?_some hfound
    have hnone : symbol.constantText? = none := by
      refine Decidable.byContradiction fun htext => ?_
      obtain ⟨n, hn⟩ := h.named id symbol hsymbol htext
      exact hname n (hsame.symm.trans hn)
    exact .of_eq (textRow_modify_of_none hsymbol hnone rfl)

/-- An operation leaves the row of texts as it is or adds to its end, and what it adds holds a text
only if it interns one that is new. -/
theorem Interning.addsTexts_apply (h : t.Interning) (hsize : t.size ≤ 4294967296) {op : Operation}
    (hop : op.SparesTexts) : t.AddsTexts (op.apply t) (op.newText? t).toList := by
  cases op with
  | install name kind value =>
    have hnone : Symbol.constantText? ⟨name, kind, value⟩ = none :=
      Option.eq_none_iff_forall_ne_some.2 fun text htext =>
        hop text (Symbol.constantText?_eq_some_iff.1 htext)
    have hadds := t.addsTexts_install name kind value
    rw [hnone] at hadds
    exact hadds
  | internText text =>
    show t.AddsTexts (t.internText text).2 _
    rw [Operation.newText?]
    rcases h.scopes.internText_cases hsize text with ⟨id, hmem, -, heq⟩ | ⟨hmem, heq⟩
    · rw [if_pos hmem, heq]
      exact .of_eq rfl
    · rw [if_neg hmem, heq]
      exact addsTexts_install { t with textCount := t.textCount + 1 } _ _ _
  | installIterator =>
    exact addsTexts_install { t with iteratorCount := t.iteratorCount + 1 } _ _ _
  | promote id => exact .of_eq (t.textRow_promote id)
  | defineFunction name program => exact h.addsTexts_defineFunction hop program
  | defineNative name routine => exact t.addsTexts_install name _ _
  | defineProperty name routine => exact t.addsTexts_install name _ _
  | installArguments => exact t.addsTexts_installArguments
  | clearLocals => exact .of_eq rfl
  | takeLocals => exact .of_eq rfl
  | begin a => exact .of_eq rfl
  | finish a =>
    refine .of_eq (textRow_placeLocals fun id hid => ?_)
    exact h.scopes.locals id (List.mem_reverse.1 hid)

theorem textCount_install (t : SymbolTable) (name : String) (kind : SymbolKind) (value : Value) :
    (t.install name kind value).2.textCount = t.textCount := by
  unfold install
  split <;> rfl

theorem textCount_foldl {α : Type} {f : SymbolTable → α → SymbolTable}
    (hf : ∀ t x, (f t x).textCount = t.textCount) (xs : List α) (t : SymbolTable) :
    (xs.foldl f t).textCount = t.textCount := by
  induction xs generalizing t with
  | nil => rfl
  | cons x xs ih => exact (ih (f t x)).trans (hf t x)

/-- The count of string constants goes up with each text that is new. -/
theorem Interning.textCount_apply (h : t.Interning) (hsize : t.size ≤ 4294967296) (op : Operation) :
    (op.apply t).textCount = t.textCount + (op.newText? t).toList.length := by
  cases op with
  | internText text =>
    show (t.internText text).2.textCount = _
    rw [Operation.newText?]
    rcases h.scopes.internText_cases hsize text with ⟨id, hmem, -, heq⟩ | ⟨hmem, heq⟩
    · rw [if_pos hmem, heq]
      rfl
    · rw [if_neg hmem, heq, textCount_install]
      rfl
  | promote id =>
    show (t.promote id).textCount = t.textCount
    unfold promote
    split
    · split <;> rfl
    · rfl
  | defineFunction name program =>
    show (t.defineFunction name program).2.textCount = t.textCount
    unfold defineFunction
    split
    · rfl
    · exact textCount_install _ _ _ _
  | install name kind value => exact textCount_install _ _ _ _
  | installIterator => exact textCount_install _ _ _ _
  | defineNative name routine => exact textCount_install _ _ _ _
  | defineProperty name routine => exact textCount_install _ _ _ _
  | installArguments =>
    show t.installArguments.textCount = t.textCount
    exact textCount_foldl (fun _ _ => textCount_install _ _ _ _) _ _
  | clearLocals => rfl
  | takeLocals => rfl
  | begin a => rfl
  | finish a =>
    show (Assembler.placeLocals t.declaredLocals t.clearLocals).textCount = t.clearLocals.textCount
    refine textCount_foldl (fun t place => ?_) _ _
    rfl

theorem Operation.newText?_eq_some {op : Operation} (h : op.newText? t = some text) :
    op = .internText text ∧ text ∉ t.texts := by
  cases op with
  | internText wanted =>
    rw [newText?] at h
    split at h
    · cases h
    · next hnew =>
      cases h
      exact ⟨rfl, hnew⟩
  | _ => cases h

theorem length_textRow (t : SymbolTable) : t.textRow.length = t.size := by
  rw [textRow, List.length_map, Array.length_toList, size]

namespace Interning

variable {op : Operation}

theorem texts_apply (h : t.Interning) (hsize : t.size ≤ 4294967296) (hop : op.SparesTexts) :
    (op.apply t).texts = t.texts ++ (op.newText? t).toList := by
  obtain ⟨new, hrow, hnew⟩ := h.addsTexts_apply hsize hop
  rw [texts_eq, texts_eq, hrow, List.reduceOption_append, hnew]

/-- A string constant holds its text for ever. -/
theorem textOf?_apply (h : t.Interning) (hsize : t.size ≤ 4294967296) (hop : op.SparesTexts)
    (htext : t.textOf? id = some text) : (op.apply t).textOf? id = some text := by
  obtain ⟨new, hrow, -⟩ := h.addsTexts_apply hsize hop
  rw [textOf?_eq_some_iff] at htext ⊢
  rw [hrow]
  exact (List.getElem?_append_left (List.getElem?_eq_some_iff.1 htext).1).trans htext

/-- A string constant was there before or has just been made. -/
theorem textOf?_of_apply (h : t.Interning) (hsize : t.size ≤ 4294967296) (hop : op.SparesTexts)
    (htext : (op.apply t).textOf? id = some text) :
    t.textOf? id = some text ∨ t.size ≤ id.index.toNat ∧ op.newText? t = some text := by
  obtain ⟨new, hrow, hnew⟩ := h.addsTexts_apply hsize hop
  rw [textOf?_eq_some_iff] at htext ⊢
  rw [hrow, List.getElem?_append, length_textRow] at htext
  split at htext
  · exact .inl htext
  · next hlarge =>
    refine .inr ⟨Nat.not_lt.1 hlarge, ?_⟩
    rw [← Option.mem_toList, ← hnew]
    exact List.reduceOption_mem_iff.2 (List.mem_of_getElem? htext)

theorem named_apply (h : t.Interning) (hsize : t.size ≤ 4294967296) (hop : op.SparesTexts)
    (hsymbol : (op.apply t).get? id = some symbol) (htext : symbol.constantText? ≠ none) :
    ∃ n : Nat, symbol.name = "string #" ++ toString n := by
  obtain ⟨text, htext⟩ := Option.ne_none_iff_exists'.1 htext
  have hhere : (op.apply t).textOf? id = some text := by
    rw [textOf?, hsymbol]
    exact htext
  rcases h.textOf?_of_apply hsize hop hhere with hbefore | ⟨hlarge, hnew⟩
  · obtain ⟨old, hold, htext⟩ := Option.bind_eq_some_iff.1 hbefore
    obtain ⟨n, hn⟩ := h.named id old hold (by rw [htext]; exact Option.some_ne_none _)
    obtain ⟨found, hfound, hname, -⟩ := (t.change_apply op).get? hold
    rw [hsymbol] at hfound
    cases hfound
    exact ⟨n, hname.trans hn⟩
  · obtain ⟨rfl, hnot⟩ := Operation.newText?_eq_some hnew
    rcases h.scopes.internText_cases hsize text with ⟨-, hmem, -⟩ | ⟨-, heq⟩
    · exact absurd hmem hnot
    · have hinstalled : (t.internText text).2.get? id = some symbol := hsymbol
      rw [heq, get?_install] at hinstalled
      split at hinstalled
      · cases hinstalled
        exact ⟨t.textCount, rfl⟩
      · exact absurd (lt_size_of_get? hinstalled) (Nat.not_lt.2 hlarge)

/-- Interning goes on through every operation. -/
theorem apply (h : t.Interning) (hop : op.SparesTexts) (hsize : (op.apply t).size ≤ 4294967296) :
    (op.apply t).Interning := by
  have hchange := t.change_apply op
  have hbefore := Nat.le_trans hchange.size_le hsize
  have htexts := h.texts_apply hbefore hop
  refine ⟨(hchange.advances h.scopes hsize).1, fun id symbol => h.named_apply hbefore hop, ?_, ?_⟩
  · rw [htexts]
    cases hnew : op.newText? t with
    | none =>
      rw [Option.toList_none, List.append_nil]
      exact h.distinct
    | some text =>
      refine List.nodup_append.2 ⟨h.distinct, List.nodup_singleton text, ?_⟩
      rintro old hold new hnew' rfl
      rw [List.mem_singleton.1 hnew'] at hold
      exact (Operation.newText?_eq_some hnew).2 hold
  · rw [htexts, List.length_append, h.counted, h.textCount_apply hbefore op]

end Interning

/-! ## Runs of operations -/

/-- The text that an operation interns, with the number that it gets. -/
def Operation.interned (t : SymbolTable) : Operation → List (String × SymbolId)
  | .internText text => [(text, (t.internText text).1)]
  | _ => []

/-- The texts that are interned one operation after the other, with the numbers that they get. -/
def interned : List Operation → SymbolTable → List (String × SymbolId)
  | [], _ => []
  | op :: ops, t => op.interned t ++ interned ops (op.apply t)

theorem interning_empty : empty.Interning where
  scopes := scoped_empty
  named id symbol h := by cases h
  distinct := .nil
  counted := rfl

namespace Interning

/-- What is interned is held by the constant with the number that is handed out. -/
theorem textOf?_interned (h : t.Interning) {op : Operation}
    (hsize : (op.apply t).size ≤ 4294967296) {call : String × SymbolId}
    (hcall : call ∈ op.interned t) : (op.apply t).textOf? call.2 = some call.1 := by
  cases op with
  | internText text =>
    rw [List.mem_singleton.1 hcall]
    show (t.internText text).2.textOf? (t.internText text).1 = some text
    have hbefore := Nat.le_trans (t.change_apply (.internText text)).size_le hsize
    have hafter : (t.internText text).2.size ≤ 4294967296 := hsize
    rcases h.scopes.internText_cases hbefore text with ⟨id, -, htext, heq⟩ | ⟨-, heq⟩
    · rw [heq]
      exact htext
    · rw [heq] at hafter ⊢
      rw [size_install] at hafter
      rw [textOf?, get?_install_self hafter]
      rfl
  | _ => cases hcall

/-- An operation adds the text that it interns, and no other. -/
theorem mem_texts_apply (h : t.Interning) {op : Operation} (hsize : t.size ≤ 4294967296)
    (hop : op.SparesTexts) (text : String) :
    text ∈ (op.apply t).texts ↔ text ∈ t.texts ∨ text ∈ (op.interned t).map Prod.fst := by
  rw [h.texts_apply hsize hop, List.mem_append]
  refine or_congr_right' fun hnot => ?_
  cases op with
  | internText wanted =>
    simp only [Operation.newText?, Operation.interned, List.map_cons, List.map_nil,
      List.mem_singleton]
    split
    · next hmem =>
      refine ⟨fun hnone => (by cases hnone), ?_⟩
      rintro rfl
      exact absurd hmem hnot
    · rw [Option.toList_some, List.mem_singleton]
  | _ => simp [Operation.newText?, Operation.interned]

/-- Interning goes on, the constants that were there hold their texts, the texts that are interned
are held under the numbers handed out, and no other texts are added. -/
theorem after (h : t.Interning) {ops : List Operation} (hops : ∀ op ∈ ops, op.SparesTexts)
    (hsize : (SymbolTable.after ops t).size ≤ 4294967296) :
    (SymbolTable.after ops t).Interning ∧
    (∀ id text, t.textOf? id = some text → (SymbolTable.after ops t).textOf? id = some text) ∧
    (∀ call ∈ interned ops t, (SymbolTable.after ops t).textOf? call.2 = some call.1) ∧
    ∀ text, text ∈ (SymbolTable.after ops t).texts ↔
      text ∈ t.texts ∨ text ∈ (interned ops t).map Prod.fst := by
  induction ops generalizing t with
  | nil =>
    refine ⟨h, fun _ _ htext => htext, fun call hcall => (by cases hcall), fun text => ?_⟩
    simp only [interned, List.map_nil, List.not_mem_nil, or_false]
    exact Iff.rfl
  | cons op ops ih =>
    have hop := hops op List.mem_cons_self
    have hnext := Nat.le_trans (size_le_after ops (op.apply t)) hsize
    have hbefore := Nat.le_trans (t.change_apply op).size_le hnext
    obtain ⟨hinterning, hkept, hheld, htexts⟩ :=
      ih (h.apply hop hnext) (fun op hop => hops op (List.mem_cons_of_mem _ hop)) hsize
    refine ⟨hinterning, fun id text htext => hkept id text (h.textOf?_apply hbefore hop htext),
      fun call hcall => ?_, fun text => (htexts text).trans ?_⟩
    · rcases List.mem_append.1 hcall with hcall | hcall
      · exact hkept _ _ (h.textOf?_interned hnext hcall)
      · exact hheld call hcall
    · rw [h.mem_texts_apply hbefore hop, interned, List.map_append, List.mem_append, or_assoc]

/-- One text is held by one constant. -/
theorem eq_of_textOf? (h : t.Interning) {other : SymbolId} (hid : t.textOf? id = some text)
    (hother : t.textOf? other = some text) : id = other := by
  have hdistinct := h.distinct
  rw [texts_eq] at hdistinct
  exact eq_of_index
    (eq_of_nodup hdistinct (textOf?_eq_some_iff.1 hid) (textOf?_eq_some_iff.1 hother))

end Interning

theorem interning_withArguments : withArguments.Interning ∧ withArguments.texts = [] := by
  have hop : Operation.SparesTexts .installArguments := trivial
  exact ⟨interning_empty.apply hop (by decide +kernel),
    interning_empty.texts_apply (by decide) hop⟩

/-- String constants are interned, as long as the numbers of symbols do not run out.  Start without
symbols or with those of the arguments, and let operations follow that make string constants by
interning only and define no function under a name that string constants have.  Then each text that
was interned is held by a constant, under the number that was handed out; two texts, interned at any
times, were given the same number just if they are equal; and there are as many string constants as
different texts were interned, which is also their count. -/
theorem texts_interned_once (start : SymbolTable) (hstart : start = empty ∨ start = withArguments)
    (ops : List Operation) (hops : ∀ op ∈ ops, op.SparesTexts)
    (hsize : (after ops start).size ≤ 4294967296) :
    (∀ call ∈ interned ops start, ∃ symbol, (after ops start).get? call.2 = some symbol ∧
      symbol.kind = .constant ∧ symbol.value = .text call.1) ∧
    (∀ call ∈ interned ops start, ∀ call' ∈ interned ops start,
      call.2 = call'.2 ↔ call.1 = call'.1) ∧
    (after ops start).texts.length = ((interned ops start).map Prod.fst).dedup.length ∧
    (after ops start).textCount = ((interned ops start).map Prod.fst).dedup.length := by
  have hstarted : start.Interning ∧ start.texts = [] := by
    rcases hstart with rfl | rfl
    · exact ⟨interning_empty, rfl⟩
    · exact interning_withArguments
  obtain ⟨hinterning, -, hheld, htexts⟩ := hstarted.1.after hops hsize
  have hlength : (after ops start).texts.length =
      ((interned ops start).map Prod.fst).dedup.length := by
    refine List.Perm.length_eq ((List.perm_ext_iff_of_nodup hinterning.distinct
      (List.nodup_dedup _)).2 fun text => ?_)
    rw [htexts, hstarted.2, List.mem_dedup]
    simp
  refine ⟨fun call hcall => ?_, fun call hcall call' hcall' => ⟨fun heq => ?_, fun heq => ?_⟩,
    hlength, hinterning.counted.symm.trans hlength⟩
  · obtain ⟨symbol, hsymbol, htext⟩ := Option.bind_eq_some_iff.1 (hheld call hcall)
    exact ⟨symbol, hsymbol, Symbol.constantText?_eq_some_iff.1 htext⟩
  · have htext := hheld call hcall
    rw [heq, hheld call' hcall'] at htext
    exact (Option.some.inj htext).symm
  · refine hinterning.eq_of_textOf? (hheld call hcall) ?_
    rw [heq]
    exact hheld call' hcall'

end SymbolTable

namespace Sample

/-- A text is interned, then another one, and the first one again after a program was finished and a
function defined.  A global variable holds the same text. -/
def internings : List SymbolTable.Operation :=
  [.install "x" .global (.text "a"), .internText "a", .internText "",
    .install "f" .frameLocal .unset, .finish (.new {}), .promote ⟨13⟩,
    .defineFunction "f" ⟨0, ⟨#[], []⟩⟩, .internText "a"]

end Sample

namespace SymbolTable

/-- The text gets the number of its constant again, and not that of the variable. -/
theorem texts_of_internings :
    (∀ op ∈ Sample.internings, op.SparesTexts) ∧
    interned Sample.internings withArguments = [("a", ⟨11⟩), ("", ⟨12⟩), ("a", ⟨11⟩)] ∧
    (∃ symbol, (after Sample.internings withArguments).get? ⟨11⟩ = some symbol ∧
      symbol.kind = .constant ∧ symbol.value = .text "a") ∧
    (after Sample.internings withArguments).textCount = 2 := by
  have hops : ∀ op ∈ Sample.internings, op.SparesTexts := by
    have hname : ∀ n : Nat, "f" ≠ "string #" ++ toString n := by
      intro n heq
      have hlength := congrArg String.length heq
      have hshort : "f".length = 1 := by decide
      have hlong : "string #".length = 8 := by decide
      rw [String.length_append] at hlength
      omega
    simpa [Sample.internings, Operation.SparesTexts] using hname
  have hcalls : interned Sample.internings withArguments =
      [("a", ⟨11⟩), ("", ⟨12⟩), ("a", ⟨11⟩)] := by
    decide +kernel
  obtain ⟨hheld, -, -, hcount⟩ :=
    texts_interned_once withArguments (.inr rfl) Sample.internings hops (by decide +kernel)
  rw [hcalls] at hheld hcount
  exact ⟨hops, hcalls, hheld _ List.mem_cons_self, hcount⟩

/-! ## When the numbers run out -/

theorem interned_append (ops later : List Operation) (t : SymbolTable) :
    interned (ops ++ later) t = interned ops t ++ interned later (after ops t) := by
  induction ops generalizing t with
  | nil => rfl
  | cons op ops ih =>
    show op.interned t ++ interned (ops ++ later) (op.apply t) = _
    rw [ih, ← List.append_assoc]
    rfl

theorem interned_declaring (kind : SymbolKind) (n : Nat) (t : SymbolTable) :
    interned (declaring kind n) t = [] := by
  induction n generalizing t with
  | zero => rfl
  | succ n ih =>
    rw [declaring, List.replicate_succ]
    exact ih _

/-- Variables hold no string constants. -/
theorem lookupText?_after_declaring (n : Nat) (text : String) :
    (after (declaring .global n) empty).lookupText? text = none := by
  refine List.find?_eq_none.2 fun id _ => ?_
  cases hsymbol : (after (declaring .global n) empty).get? id with
  | none => simp [isTextConstant, hsymbol]
  | some symbol =>
    have hlt := lt_size_of_get? hsymbol
    rw [size_after_declaring] at hlt
    rw [get?_after_declaring .global hlt] at hsymbol
    cases hsymbol
    simp [isTextConstant, get?_after_declaring .global hlt]

/-- Some variables are declared, and a text is interned after them. -/
def interningAfter (n : Nat) (text : String) : List Operation :=
  declaring .global n ++ [.internText text]

theorem sparesTexts_interningAfter (n : Nat) (text : String) :
    ∀ op ∈ interningAfter n text, op.SparesTexts := by
  intro op hop
  rcases List.mem_append.1 hop with hvariable | htext
  · rw [List.eq_of_mem_replicate hvariable]
    rintro _ ⟨hkind, -⟩
    cases hkind
  · rw [List.mem_singleton.1 htext]
    trivial

/-- The text gets the number `n`, as far as there is such a number. -/
theorem interned_interningAfter (n : Nat) (text : String) :
    interned (interningAfter n text) empty = [(text, ⟨UInt32.ofNat n⟩)] := by
  have hnext : (internText (after (declaring .global n) empty) text).1 = ⟨UInt32.ofNat n⟩ := by
    rw [internText, lookupText?_after_declaring, fst_install]
    show (⟨UInt32.ofNat (after (declaring .global n) empty).size⟩ : SymbolId) = _
    rw [size_after_declaring]
  rw [interningAfter, interned_append, interned_declaring]
  show [(text, _)] = _
  rw [hnext]

/-- The variables keep their numbers. -/
theorem get?_after_interningAfter {n : Nat} {id : SymbolId} (text : String)
    (h : id.index.toNat < n) :
    (after (interningAfter n text) empty).get? id = some ⟨"x", .global, .unset⟩ := by
  have happend : after (interningAfter n text) empty =
      (internText (after (declaring .global n) empty) text).2 := List.foldl_append
  have hsize := size_after_declaring .global n
  rw [happend, internText, lookupText?_after_declaring, get?_install, if_neg]
  · exact get?_after_declaring .global h
  · show ¬ id.index.toNat = (after (declaring .global n) empty).size
    omega

/-- A text that is interned after 4294967296 variables is given the number of the first one. -/
theorem texts_confused_when_overfull :
    (∀ op ∈ interningAfter 4294967296 "a", op.SparesTexts) ∧
    interned (interningAfter 4294967296 "a") empty = [("a", ⟨0⟩)] ∧
    (after (interningAfter 4294967296 "a") empty).get? ⟨0⟩ = some ⟨"x", .global, .unset⟩ :=
  ⟨sparesTexts_interningAfter _ _, interned_interningAfter _ _,
    get?_after_interningAfter "a" (by decide)⟩

end SymbolTable

end MacroMachine
