import MacroMachine.Program.Assembler

/-!
# The scopes of a symbol table

Code refers to symbols by their numbers, and numbers are found by looking names up in two scopes.
This module says what numbers and scopes come to after any operations on a table, those of an
assembler that concern the table among them.

*Numbers.*  A number keeps naming a symbol of the same name for ever.  Its kind can change in two
ways only: a variable of a frame becomes global, or a symbol of another kind becomes a function
(`Operation.Turns`).

*Scopes.*  The global scope lists the symbols that are no variables of frames, each once.  The local
scope lists variables of frames in the order of their declaration, but in general not all of them,
since it is emptied when a program is begun or finished (`Scoped`).

*Order.*  Which symbols have entered the global scope can be seen from the kinds of all symbols
before and after an operation (`entrants`).  The global scope is the list of all that have entered
it, in this order, and a name is looked up from the end of that list.
-/

namespace MacroMachine

namespace SymbolTable

variable {t t' t'' : SymbolTable} {id : SymbolId} {symbol : Symbol}

/-! ## Operations -/

/-- What can be done to a symbol table while programs are put together. -/
inductive Operation where
  | install (name : String) (kind : SymbolKind) (value : Value)
  | internText (text : String)
  | installIterator
  | promote (id : SymbolId)
  | defineFunction (name : String) (program : ProgramRef)
  | defineNative (name : String) (routine : NativeId)
  | defineProperty (name : String) (routine : NativeId)
  | installArguments
  | clearLocals
  /-- The local scope is handed over to the caller. -/
  | takeLocals
  /-- An assembler begins a program. -/
  | begin (a : Assembler)
  /-- An assembler finishes a program. -/
  | finish (a : Assembler)

/-- The numbers that an operation hands out, and the table after it. -/
def Operation.perform : Operation → SymbolTable → List SymbolId × SymbolTable
  | .install name kind value, t => single (t.install name kind value)
  | .internText text, t => single (t.internText text)
  | .installIterator, t => single t.installIterator
  | .promote id, t => ([id], t.promote id)
  | .defineFunction name program, t => single (t.defineFunction name program)
  | .defineNative name routine, t => single (t.defineNative name routine)
  | .defineProperty name routine, t => single (t.defineProperty name routine)
  | .installArguments, t => ([], t.installArguments)
  | .clearLocals, t => ([], t.clearLocals)
  | .takeLocals, t => (t.declaredLocals, t.clearLocals)
  | .begin a, t => ([], (a.begin t).2)
  | .finish a, t => ((a.finish t).1.locals, (a.finish t).2.2)
where
  single (made : SymbolId × SymbolTable) : List SymbolId × SymbolTable :=
    ([made.1], made.2)

/-- The table after an operation. -/
def Operation.apply (t : SymbolTable) (op : Operation) : SymbolTable :=
  (op.perform t).2

/-! ## Symbols -/

/-- The kind of the symbol with a number. -/
def kind? (t : SymbolTable) (id : SymbolId) : Option SymbolKind :=
  (t.get? id).map (·.kind)

/-- The number names a symbol that is no variable of a frame. -/
def isShared (t : SymbolTable) (id : SymbolId) : Bool :=
  (t.kind? id).any (· != .frameLocal)

/-- The number of the symbol that is installed next. -/
def nextId (t : SymbolTable) : SymbolId :=
  ⟨UInt32.ofNat t.size⟩

theorem isShared_iff :
    t.isShared id = true ↔ ∃ symbol, t.get? id = some symbol ∧ symbol.kind ≠ .frameLocal := by
  cases hsymbol : t.get? id <;> simp [isShared, kind?, hsymbol]

theorem kind?_of_get? (h : t.get? id = some symbol) : t.kind? id = some symbol.kind := by
  rw [kind?, h, Option.map_some]

theorem lt_size_of_get? (h : t.get? id = some symbol) : id.index.toNat < t.size :=
  (Array.getElem?_eq_some_iff.1 h).1

theorem eq_of_index {id other : SymbolId} (h : id.index.toNat = other.index.toNat) :
    id = other := by
  obtain ⟨i⟩ := id
  obtain ⟨j⟩ := other
  exact congrArg SymbolId.mk (UInt32.toNat_inj.1 h)

/-- Numbers are good for 4294967296 symbols. -/
theorem toNat_nextId (h : t.size < 4294967296) : t.nextId.index.toNat = t.size :=
  UInt32.toNat_ofNat_of_lt' h

theorem get?_install (t : SymbolTable) (name : String) (kind : SymbolKind) (value : Value)
    (id : SymbolId) : (t.install name kind value).2.get? id =
      if id.index.toNat = t.size then some ⟨name, kind, value⟩ else t.get? id := by
  unfold install
  split <;> exact Array.getElem?_push

theorem size_install (t : SymbolTable) (name : String) (kind : SymbolKind) (value : Value) :
    (t.install name kind value).2.size = t.size + 1 := by
  unfold install
  split <;> exact Array.size_push _

theorem globals_install (t : SymbolTable) (name : String) (kind : SymbolKind) (value : Value) :
    (t.install name kind value).2.globals =
      if kind = .frameLocal then t.globals else t.nextId :: t.globals := by
  unfold install
  split <;> rfl

theorem fst_install (t : SymbolTable) (name : String) (kind : SymbolKind) (value : Value) :
    (t.install name kind value).1 = t.nextId := by
  unfold install
  split <;> rfl

theorem locals_install (t : SymbolTable) (name : String) (kind : SymbolKind) (value : Value) :
    (t.install name kind value).2.locals =
      if kind = .frameLocal then t.nextId :: t.locals else t.locals := by
  unfold install
  split <;> rfl

theorem kind?_install (h : t.size < 4294967296) (name : String) (kind : SymbolKind) (value : Value)
    (id : SymbolId) : (t.install name kind value).2.kind? id =
      if id = t.nextId then some kind else t.kind? id := by
  rw [kind?, get?_install]
  by_cases hid : id = t.nextId
  · rw [if_pos hid, if_pos (hid ▸ toNat_nextId h)]
    rfl
  · rw [if_neg hid, if_neg fun heq => hid (eq_of_index (heq.trans (toNat_nextId h).symm)), kind?]

theorem get?_modify_of_some (h : t.get? id = some symbol) (f : Symbol → Symbol) :
    (t.modify id f).get? id = some (f symbol) := by
  rw [get?_modify, h, Option.map_some]

theorem kind?_modify (t : SymbolTable) (f : Symbol → Symbol) (id other : SymbolId) :
    (t.modify id f).kind? other =
      if other = id then (t.get? id).map fun symbol => (f symbol).kind else t.kind? other := by
  by_cases hid : other = id
  · subst hid
    rw [if_pos rfl, kind?, get?_modify, Option.map_map]
    rfl
  · rw [if_neg hid, kind?, get?_modify_of_ne _ _ hid, kind?]

theorem size_modify (t : SymbolTable) (id : SymbolId) (f : Symbol → Symbol) :
    (t.modify id f).size = t.size := by
  simp [modify, size]

theorem promote_of_local (h : t.get? id = some symbol) (hkind : symbol.kind = .frameLocal) :
    t.promote id =
      { t.modify id (fun symbol => { symbol with kind := .global }) with
        locals := t.locals.filter (· != id)
        globals := id :: t.globals } := by
  simp only [promote, h, if_pos hkind]

/-! ## Changes of single symbols -/

/-- The symbols that were there keep their names and kinds. -/
def Retains (t t' : SymbolTable) : Prop :=
  ∀ id symbol, t.get? id = some symbol →
    ∃ symbol', t'.get? id = some symbol' ∧ symbol'.name = symbol.name ∧ symbol'.kind = symbol.kind

theorem Retains.refl (t : SymbolTable) : t.Retains t :=
  fun _ symbol h => ⟨symbol, h, rfl, rfl⟩

theorem Retains.trans (h : t.Retains t') (h' : t'.Retains t'') : t.Retains t'' := by
  intro id symbol hsymbol
  obtain ⟨next, hnext, hname, hkind⟩ := h id symbol hsymbol
  obtain ⟨last, hlast, hname', hkind'⟩ := h' id next hnext
  exact ⟨last, hlast, hname'.trans hname, hkind'.trans hkind⟩

theorem retains_install (t : SymbolTable) (name : String) (kind : SymbolKind) (value : Value) :
    t.Retains (t.install name kind value).2 := by
  intro id symbol h
  refine ⟨symbol, ?_, rfl, rfl⟩
  rw [get?_install, if_neg (Nat.ne_of_lt (lt_size_of_get? h))]
  exact h

/-- Two tables that differ in the names and values of symbols only. -/
structure SameKinds (t t' : SymbolTable) : Prop where
  kinds : ∀ id, t'.kind? id = t.kind? id
  size : t'.size = t.size
  globals : t'.globals = t.globals
  locals : t'.locals = t.locals

/-- Two tables that differ in the values of symbols only. -/
structure OnlyValues (t t' : SymbolTable) : Prop extends t.SameKinds t' where
  retains : t.Retains t'

theorem OnlyValues.refl (t : SymbolTable) : t.OnlyValues t :=
  ⟨⟨fun _ => rfl, rfl, rfl, rfl⟩, .refl t⟩

theorem OnlyValues.trans (h : t.OnlyValues t') (h' : t'.OnlyValues t'') : t.OnlyValues t'' where
  retains := h.retains.trans h'.retains
  kinds id := (h'.kinds id).trans (h.kinds id)
  size := h'.size.trans h.size
  globals := h'.globals.trans h.globals
  locals := h'.locals.trans h.locals

theorem onlyValues_setValue (t : SymbolTable) (id : SymbolId) (value : Value) :
    t.OnlyValues (t.setValue id value) where
  retains other symbol h := by
    by_cases hid : other = id
    · subst hid
      exact ⟨{ symbol with value }, get?_modify_of_some h _, rfl, rfl⟩
    · exact ⟨symbol, (t.get?_modify_of_ne _ hid).trans h, rfl, rfl⟩
  kinds other := by
    rw [setValue, kind?_modify]
    split
    · next hid =>
      rw [hid]
      rfl
    · rfl
  size := t.size_modify id _
  globals := rfl
  locals := rfl

/-- Finishing a program places its variables in the frame and empties the local scope. -/
theorem onlyValues_placeLocals (locals : List SymbolId) (t : SymbolTable) :
    t.OnlyValues (Assembler.placeLocals locals t) := by
  have hrun : ∀ (placed : List (SymbolId × Nat)) (t : SymbolTable),
      t.OnlyValues (placed.foldl (fun t place => t.setValue place.1 (.ofNat place.2)) t) := by
    intro placed
    induction placed with
    | nil => exact fun t => .refl t
    | cons place placed ih =>
      intro t
      exact (t.onlyValues_setValue place.1 (.ofNat place.2)).trans (ih _)
  exact hrun locals.zipIdx t

/-! ## Scopes -/

/-- The scopes list what they should: the global scope every symbol that is no variable of a frame,
each once, and the local scope some variables of frames, the newest first. -/
structure Scoped (t : SymbolTable) : Prop where
  globals : ∀ id, id ∈ t.globals ↔ t.isShared id = true
  once : t.globals.Nodup
  locals : ∀ id ∈ t.locals, t.kind? id = some .frameLocal
  declared : t.locals.Pairwise fun newer older => older.index < newer.index

/-- Some symbols have entered the global scope, those with smaller numbers first. -/
structure Admits (t t' : SymbolTable) (new : List SymbolId) : Prop where
  globals : t'.globals = new.reverse ++ t.globals
  increasing : new.Pairwise fun older newer => older.index < newer.index

/-- The scopes are in order again and symbols have entered the global scope. -/
def Advances (t t' : SymbolTable) : Prop :=
  t'.Scoped ∧ ∃ new, t.Admits t' new

theorem admits_nil (h : t'.globals = t.globals) : t.Admits t' [] :=
  ⟨h, .nil⟩

theorem scoped_empty : empty.Scoped where
  globals id := by simp [empty, isShared, kind?, get?]
  once := .nil
  locals id h := by cases h
  declared := .nil

namespace Scoped

theorem exists_of_mem_globals (h : t.Scoped) (hid : id ∈ t.globals) :
    ∃ symbol, t.get? id = some symbol ∧ symbol.kind ≠ .frameLocal :=
  isShared_iff.1 ((h.globals id).1 hid)

theorem exists_of_mem_locals (h : t.Scoped) (hid : id ∈ t.locals) :
    ∃ symbol, t.get? id = some symbol ∧ symbol.kind = .frameLocal :=
  Option.map_eq_some_iff.1 (h.locals id hid)

theorem lt_size_of_mem_globals (h : t.Scoped) (hid : id ∈ t.globals) : id.index.toNat < t.size := by
  obtain ⟨symbol, hsymbol, -⟩ := h.exists_of_mem_globals hid
  exact lt_size_of_get? hsymbol

theorem lt_size_of_mem_locals (h : t.Scoped) (hid : id ∈ t.locals) : id.index.toNat < t.size := by
  obtain ⟨symbol, hsymbol, -⟩ := h.exists_of_mem_locals hid
  exact lt_size_of_get? hsymbol

theorem sameKinds (h : t.Scoped) (hsame : t.SameKinds t') : t'.Scoped where
  globals id := by
    rw [hsame.globals, h.globals, isShared, isShared, hsame.kinds]
  once := by
    rw [hsame.globals]
    exact h.once
  locals id hid := by
    rw [hsame.kinds]
    exact h.locals id (hsame.locals ▸ hid)
  declared := by
    rw [hsame.locals]
    exact h.declared

theorem clearLocals (h : t.Scoped) : t.clearLocals.Scoped where
  globals := h.globals
  once := h.once
  locals id hid := by cases hid
  declared := .nil

theorem nextId_notMem_globals (h : t.Scoped) (hsize : t.size < 4294967296) :
    t.nextId ∉ t.globals :=
  fun hid => Nat.ne_of_lt (h.lt_size_of_mem_globals hid) (toNat_nextId hsize)

theorem nextId_notMem_locals (h : t.Scoped) (hsize : t.size < 4294967296) : t.nextId ∉ t.locals :=
  fun hid => Nat.ne_of_lt (h.lt_size_of_mem_locals hid) (toNat_nextId hsize)

/-- A new variable of a frame is the newest of the local scope. -/
theorem installLocal (h : t.Scoped) (hsize : t.size < 4294967296) (name : String) (value : Value) :
    (t.install name .frameLocal value).2.Scoped := by
  refine ⟨fun id => ?_, h.once, fun id hid => ?_, List.pairwise_cons.2 ⟨fun older hold => ?_, ?_⟩⟩
  · refine (h.globals id).trans ?_
    rw [isShared, isShared, kind?_install hsize]
    split
    · next hid =>
      have hnone : t.isShared t.nextId = false :=
        Bool.eq_false_iff.2 fun hshared => h.nextId_notMem_globals hsize ((h.globals _).2 hshared)
      rw [isShared, ← hid] at hnone
      simp [hnone]
    · rfl
  · rw [kind?_install hsize]
    split
    · rfl
    · next hne => exact h.locals id ((List.mem_cons.1 hid).resolve_left hne)
  · rw [UInt32.lt_iff_toNat_lt]
    exact Nat.lt_of_lt_of_eq (h.lt_size_of_mem_locals hold) (toNat_nextId hsize).symm
  · exact h.declared

/-- A new symbol of another kind is the newest of the global scope. -/
theorem installShared (h : t.Scoped) (hsize : t.size < 4294967296) (name : String)
    {kind : SymbolKind} (hkind : kind ≠ .frameLocal) (value : Value) :
    (t.install name kind value).2.Scoped := by
  have hglobals : (t.install name kind value).2.globals = t.nextId :: t.globals := by
    rw [globals_install, if_neg hkind]
  have hlocals : (t.install name kind value).2.locals = t.locals := by
    rw [locals_install, if_neg hkind]
  refine ⟨fun id => ?_, ?_, fun id hid => ?_, ?_⟩
  · rw [hglobals, List.mem_cons, h.globals, isShared, isShared, kind?_install hsize]
    by_cases hid : id = t.nextId
    · simp [hid, hkind]
    · simp [hid]
  · rw [hglobals]
    exact List.nodup_cons.2 ⟨h.nextId_notMem_globals hsize, h.once⟩
  · rw [hlocals] at hid
    have hne : id ≠ t.nextId := fun heq => h.nextId_notMem_locals hsize (heq ▸ hid)
    rw [kind?_install hsize, if_neg hne]
    exact h.locals id hid
  · rw [hlocals]
    exact h.declared

theorem install (h : t.Scoped) (hsize : t.size < 4294967296) (name : String) (kind : SymbolKind)
    (value : Value) : (t.install name kind value).2.Scoped := by
  by_cases hkind : kind = .frameLocal
  · rw [hkind]
    exact h.installLocal hsize name value
  · exact h.installShared hsize name hkind value

/-- A variable of a frame leaves the local scope, if it is there, and enters the global scope. -/
theorem promote (h : t.Scoped) (hsymbol : t.get? id = some symbol)
    (hkind : symbol.kind = .frameLocal) : (t.promote id).Scoped := by
  have hafter : ∀ other, (t.promote id).kind? other =
      if other = id then some .global else t.kind? other := by
    intro other
    rw [promote_of_local hsymbol hkind]
    exact (t.kind?_modify _ id other).trans (by rw [hsymbol]; rfl)
  have hglobal : id ∉ t.globals := by
    intro hid
    obtain ⟨found, hfound, hne⟩ := h.exists_of_mem_globals hid
    rw [hsymbol] at hfound
    exact hne (Option.some.inj hfound ▸ hkind)
  have hglobals : (t.promote id).globals = id :: t.globals := by
    rw [promote_of_local hsymbol hkind]
  have hlocals : (t.promote id).locals = t.locals.filter (· != id) := by
    rw [promote_of_local hsymbol hkind]
  refine ⟨fun other => ?_, ?_, fun other hother => ?_, ?_⟩
  · rw [hglobals, List.mem_cons, h.globals, isShared, isShared, hafter]
    by_cases hother : other = id
    · simp [hother]
    · simp [hother]
  · rw [hglobals]
    exact List.nodup_cons.2 ⟨hglobal, h.once⟩
  · rw [hlocals] at hother
    obtain ⟨hmem, hne⟩ := List.mem_filter.1 hother
    rw [hafter, if_neg (bne_iff_ne.1 hne)]
    exact h.locals other hmem
  · rw [hlocals]
    exact h.declared.filter _

/-- A symbol of the global scope may become anything but a variable of a frame. -/
theorem modify (h : t.Scoped) (hid : id ∈ t.globals) {f : Symbol → Symbol}
    (hf : ∀ symbol, (f symbol).kind ≠ .frameLocal) : (t.modify id f).Scoped := by
  obtain ⟨symbol, hsymbol, hne⟩ := h.exists_of_mem_globals hid
  refine ⟨fun other => ?_, h.once, fun other hother => ?_, h.declared⟩
  · refine (h.globals other).trans ?_
    rw [isShared, isShared, kind?_modify]
    by_cases hother : other = id
    · simp [hother, kind?, hsymbol, hne, hf symbol]
    · simp [hother]
  · have hlocal := h.locals other hother
    rw [kind?_modify, if_neg fun heq : other = id => ?_]
    · exact hlocal
    · rw [heq, kind?_of_get? hsymbol] at hlocal
      exact hne (Option.some.inj hlocal)

end Scoped

/-! ## What an operation does -/

/-- Symbols are installed one after the other; the counts of hidden names play no part. -/
inductive Installs : SymbolTable → SymbolTable → Prop where
  | done (t : SymbolTable) : Installs t t
  | count {t t' : SymbolTable} (texts iterators : Nat) :
      Installs { t with textCount := texts, iteratorCount := iterators } t' → Installs t t'
  | install {t t' : SymbolTable} (name : String) (kind : SymbolKind) (value : Value) :
      Installs (t.install name kind value).2 t' → Installs t t'

namespace Installs

theorem single (t : SymbolTable) (name : String) (kind : SymbolKind) (value : Value) :
    t.Installs (t.install name kind value).2 :=
  .install name kind value (.done _)

theorem arguments (t : SymbolTable) : t.Installs t.installArguments := by
  have hrun : ∀ (names : List (String × Int32)) (t : SymbolTable), t.Installs
      (names.foldl (fun t named => (t.install named.1 .argument (.int named.2)).2) t) := by
    intro names
    induction names with
    | nil => exact fun t => .done t
    | cons named names ih => exact fun t => .install named.1 .argument (.int named.2) (ih _)
  exact hrun argumentNames t

theorem retains (h : t.Installs t') : t.Retains t' := by
  induction h with
  | done t => exact .refl t
  | count _ _ _ ih => exact ih
  | @install t _ name kind value _ ih => exact (t.retains_install name kind value).trans ih

theorem size_le (h : t.Installs t') : t.size ≤ t'.size := by
  induction h with
  | done t => exact Nat.le_refl _
  | count _ _ _ ih => exact ih
  | @install t _ name kind value _ ih =>
    rw [size_install] at ih
    exact Nat.le_of_succ_le ih

/-- What is installed enters its scope in the order of installation, since numbers only grow. -/
theorem advances (h : t.Installs t') (hscoped : t.Scoped) (hsize : t'.size ≤ 4294967296) :
    t'.Scoped ∧ ∃ new, t.Admits t' new ∧ ∀ id ∈ new, t.size ≤ id.index.toNat := by
  induction h with
  | done t => exact ⟨hscoped, [], admits_nil rfl, fun id hid => by cases hid⟩
  | count _ _ _ ih =>
    obtain ⟨hscoped', new, hnew, hlarge⟩ :=
      ih ⟨hscoped.globals, hscoped.once, hscoped.locals, hscoped.declared⟩ hsize
    exact ⟨hscoped', new, ⟨hnew.globals, hnew.increasing⟩, hlarge⟩
  | @install t t' name kind value hrest ih =>
    have hroom : t.size < 4294967296 := by
      have hle := hrest.size_le
      rw [size_install] at hle
      omega
    obtain ⟨hscoped', new, hnew, hlarge⟩ := ih (hscoped.install hroom name kind value) hsize
    refine ⟨hscoped', ?_⟩
    rw [size_install] at hlarge
    have hglobals := hnew.globals
    rw [globals_install] at hglobals
    by_cases hkind : kind = .frameLocal
    · rw [if_pos hkind] at hglobals
      exact ⟨new, ⟨hglobals, hnew.increasing⟩, fun id hid => Nat.le_of_succ_le (hlarge id hid)⟩
    · rw [if_neg hkind] at hglobals
      refine ⟨t.nextId :: new, ⟨?_, List.pairwise_cons.2 ⟨fun id hid => ?_, hnew.increasing⟩⟩, ?_⟩
      · rw [hglobals, List.reverse_cons, List.append_assoc, List.singleton_append]
      · rw [UInt32.lt_iff_toNat_lt, toNat_nextId hroom]
        exact hlarge id hid
      · intro id hid
        rcases List.mem_cons.1 hid with rfl | hid
        · exact Nat.le_of_eq (toNat_nextId hroom).symm
        · exact Nat.le_of_succ_le (hlarge id hid)

end Installs

/-- The operation ends the local scope. -/
def Operation.EndsScope : Operation → Prop
  | .clearLocals | .takeLocals | .begin _ | .finish _ => True
  | _ => False

/-- What an operation can do to a table. -/
inductive Change (t : SymbolTable) : Operation → SymbolTable → Prop where
  | installs {op : Operation} {t' : SymbolTable} : t.Installs t' → Change t op t'
  /-- A variable of a frame becomes global. -/
  | promotes {id : SymbolId} {symbol : Symbol} : t.get? id = some symbol →
      symbol.kind = .frameLocal → Change t (.promote id) (t.promote id)
  /-- The newest global of a name becomes a function. -/
  | defines {name : String} {id : SymbolId} (program : ProgramRef) : t.findGlobal? name = some id →
      Change t (.defineFunction name program)
        (t.modify id fun symbol => { symbol with kind := .function, value := .program program })
  /-- The local scope comes to an end. -/
  | clears {op : Operation} {t' : SymbolTable} : op.EndsScope → t.clearLocals.OnlyValues t' →
      Change t op t'

theorem change_apply (t : SymbolTable) (op : Operation) : t.Change op (op.apply t) := by
  cases op with
  | install name kind value => exact .installs (.single t name kind value)
  | internText text =>
    refine .installs ?_
    show t.Installs (t.internText text).2
    unfold internText
    split
    · exact .done t
    · exact .count (t.textCount + 1) t.iteratorCount (.single _ _ _ _)
  | installIterator =>
    exact .installs (.count t.textCount (t.iteratorCount + 1) (.single _ _ _ _))
  | promote id =>
    show t.Change (.promote id) (t.promote id)
    cases hsymbol : t.get? id with
    | none =>
      have hsame : t.promote id = t := by simp only [SymbolTable.promote, hsymbol]
      rw [hsame]
      exact .installs (.done t)
    | some symbol =>
      by_cases hkind : symbol.kind = .frameLocal
      · exact .promotes hsymbol hkind
      · have hsame : t.promote id = t := by simp only [SymbolTable.promote, hsymbol, if_neg hkind]
        rw [hsame]
        exact .installs (.done t)
  | defineFunction name program =>
    show t.Change (.defineFunction name program) (t.defineFunction name program).2
    unfold defineFunction
    split
    · next hfound => exact .defines program hfound
    · exact .installs (.single t _ _ _)
  | defineNative name routine => exact .installs (.single t _ _ _)
  | defineProperty name routine => exact .installs (.single t _ _ _)
  | installArguments => exact .installs (.arguments t)
  | clearLocals => exact .clears trivial (.refl _)
  | takeLocals => exact .clears trivial (.refl _)
  | begin a => exact .clears trivial (.refl _)
  | finish a => exact .clears trivial (onlyValues_placeLocals _ _)

/-- How an operation may leave the kind of a symbol. -/
def Operation.Turns (op : Operation) (id : SymbolId) (symbol : Symbol) (kind : SymbolKind) : Prop :=
  kind = symbol.kind ∨
    op = .promote id ∧ symbol.kind = .frameLocal ∧ kind = .global ∨
    (∃ program, op = .defineFunction symbol.name program) ∧ symbol.kind ≠ .frameLocal ∧
      kind = .function

namespace Change

variable {op : Operation}

theorem size_le (h : t.Change op t') : t.size ≤ t'.size := by
  cases h with
  | installs hinstalls => exact hinstalls.size_le
  | promotes hsymbol hkind =>
    rw [promote_of_local hsymbol hkind]
    exact Nat.le_of_eq (t.size_modify _ _).symm
  | defines program hfound => exact Nat.le_of_eq (t.size_modify _ _).symm
  | clears _ hvalues => exact Nat.le_of_eq hvalues.size.symm

theorem advances (h : t.Change op t') (hscoped : t.Scoped) (hsize : t'.size ≤ 4294967296) :
    t.Advances t' := by
  cases h with
  | installs hinstalls =>
    obtain ⟨hscoped', new, hnew, -⟩ := hinstalls.advances hscoped hsize
    exact ⟨hscoped', new, hnew⟩
  | @promotes id _ hsymbol hkind =>
    refine ⟨hscoped.promote hsymbol hkind, [id], ?_, List.pairwise_singleton _ _⟩
    rw [promote_of_local hsymbol hkind]
    rfl
  | defines program hfound =>
    have hid := List.mem_of_find?_eq_some hfound
    exact ⟨hscoped.modify hid fun symbol => SymbolKind.noConfusion, [], admits_nil rfl⟩
  | clears _ hvalues =>
    exact ⟨hscoped.clearLocals.sameKinds hvalues.toSameKinds, [], admits_nil hvalues.globals⟩

/-- A number keeps naming a symbol of the same name.  That a function takes the place of no variable
of a frame is due to the global scope holding none. -/
theorem get? (h : t.Change op t') (hsymbol : t.get? id = some symbol) :
    ∃ symbol', t'.get? id = some symbol' ∧ symbol'.name = symbol.name ∧
      (t.Scoped → op.Turns id symbol symbol'.kind) := by
  have hretained : t.Retains t' → ∃ symbol', t'.get? id = some symbol' ∧
      symbol'.name = symbol.name ∧ (t.Scoped → op.Turns id symbol symbol'.kind) := by
    intro hretains
    obtain ⟨symbol', hsymbol', hname, hkind⟩ := hretains id symbol hsymbol
    exact ⟨symbol', hsymbol', hname, fun _ => .inl hkind⟩
  cases h with
  | installs hinstalls => exact hretained hinstalls.retains
  | clears _ hvalues => exact hretained hvalues.retains
  | @promotes promoted _ hlocal hkind =>
    rw [promote_of_local hlocal hkind]
    by_cases hid : id = promoted
    · subst hid
      rw [hsymbol] at hlocal
      cases hlocal
      exact ⟨_, get?_modify_of_some hsymbol _, rfl, fun _ => .inr (.inl ⟨rfl, hkind, rfl⟩)⟩
    · exact ⟨symbol, (t.get?_modify_of_ne _ hid).trans hsymbol, rfl, fun _ => .inl rfl⟩
  | @defines name defined program hfound =>
    by_cases hid : id = defined
    · subst hid
      refine ⟨_, get?_modify_of_some hsymbol _, rfl, fun hscoped => ?_⟩
      have hname : symbol.name = name := by
        simpa [isNamed, hsymbol] using List.find?_some hfound
      obtain ⟨found, hfound', hne⟩ :=
        hscoped.exists_of_mem_globals (List.mem_of_find?_eq_some hfound)
      rw [hsymbol] at hfound'
      cases hfound'
      exact .inr (.inr ⟨⟨program, by rw [hname]⟩, hne, rfl⟩)
    · exact ⟨symbol, (t.get?_modify_of_ne _ hid).trans hsymbol, rfl, fun _ => .inl rfl⟩

end Change

/-! ## Runs of operations -/

/-- The table after operations, from the first on. -/
def after (ops : List Operation) (t : SymbolTable) : SymbolTable :=
  ops.foldl Operation.apply t

/-- The symbols that have entered the global scope: those that are no variables of frames now and
that were missing, or variables of frames, before. -/
def entrants (before after : SymbolTable) : List SymbolId :=
  ((List.range after.size).map fun i => ⟨UInt32.ofNat i⟩).filter fun id =>
    after.isShared id && !before.isShared id

/-- The symbols that enter the global scope one operation after the other. -/
def entered : List Operation → SymbolTable → List SymbolId
  | [], _ => []
  | op :: ops, t => entrants t (op.apply t) ++ entered ops (op.apply t)

theorem size_le_after (ops : List Operation) (t : SymbolTable) : t.size ≤ (after ops t).size := by
  induction ops generalizing t with
  | nil => exact Nat.le_refl _
  | cons op ops ih => exact Nat.le_trans (t.change_apply op).size_le (ih (op.apply t))

/-- A number names a symbol of the same name for ever. -/
theorem name_after (ops : List Operation) (hsymbol : t.get? id = some symbol) :
    ∃ symbol', (after ops t).get? id = some symbol' ∧ symbol'.name = symbol.name := by
  induction ops generalizing t symbol with
  | nil => exact ⟨symbol, hsymbol, rfl⟩
  | cons op ops ih =>
    obtain ⟨next, hnext, hname, -⟩ := (t.change_apply op).get? hsymbol
    obtain ⟨last, hlast, hname'⟩ := ih hnext
    exact ⟨last, hlast, hname'.trans hname⟩

theorem increasing_range (n : Nat) (h : n ≤ 4294967296) :
    ((List.range n).map fun i => (⟨UInt32.ofNat i⟩ : SymbolId)).Pairwise
      fun older newer => older.index < newer.index := by
  refine List.pairwise_map.2 (List.pairwise_lt_range.imp_of_mem fun hi hj hij => ?_)
  have hsmall := Nat.lt_of_lt_of_le (List.mem_range.1 hj) h
  rw [UInt32.lt_iff_toNat_lt, UInt32.toNat_ofNat_of_lt' (Nat.lt_trans hij hsmall),
    UInt32.toNat_ofNat_of_lt' hsmall]
  exact hij

theorem nodup_of_increasing {ids : List SymbolId}
    (h : ids.Pairwise fun older newer => older.index < newer.index) : ids.Nodup := by
  refine h.imp ?_
  rintro older newer hlt rfl
  exact UInt32.lt_irrefl older.index hlt

/-- What has entered the global scope can be told from the kinds. -/
theorem Admits.entrants_eq {new : List SymbolId} (h : t.Admits t' new) (hbefore : t.Scoped)
    (hafter : t'.Scoped) (hsize : t'.size ≤ 4294967296) : entrants t t' = new := by
  have hincreasing := (increasing_range t'.size hsize).filter fun id =>
    t'.isShared id && !t.isShared id
  have hmem : ∀ id, id ∈ entrants t t' ↔ id ∈ new := by
    intro id
    have honce := hafter.once
    rw [h.globals, List.nodup_append] at honce
    have hshared : t'.isShared id = true ↔ id ∈ new ∨ t.isShared id = true := by
      rw [← hafter.globals, h.globals, List.mem_append, List.mem_reverse, hbefore.globals]
    have hnew : id ∈ new → t.isShared id = false := fun hid =>
      Bool.eq_false_iff.2 fun hold =>
        honce.2.2 id (List.mem_reverse.2 hid) id ((hbefore.globals id).2 hold) rfl
    have hrange : t'.isShared id = true →
        id ∈ (List.range t'.size).map fun i => (⟨UInt32.ofNat i⟩ : SymbolId) := fun hid =>
      List.mem_map.2 ⟨id.index.toNat,
        List.mem_range.2 (hafter.lt_size_of_mem_globals ((hafter.globals id).2 hid)),
        congrArg SymbolId.mk UInt32.ofNat_toNat⟩
    simp only [entrants, List.mem_filter, Bool.and_eq_true, Bool.not_eq_true']
    constructor
    · rintro ⟨-, hid, hold⟩
      rcases hshared.1 hid with hid | hid
      · exact hid
      · rw [hold] at hid
        cases hid
    · intro hid
      have hid' := hshared.2 (.inl hid)
      exact ⟨hrange hid', hid', hnew hid⟩
  refine List.Perm.eq_of_pairwise (fun a b _ _ hab hba => ?_) hincreasing h.increasing
    ((List.perm_ext_iff_of_nodup (nodup_of_increasing hincreasing)
      (nodup_of_increasing h.increasing)).2 hmem)
  exact absurd hab (UInt32.lt_asymm hba)

/-- The scopes stay in order, and the global scope is what has entered it, the last first. -/
theorem Scoped.after (h : t.Scoped) (ops : List Operation)
    (hsize : (SymbolTable.after ops t).size ≤ 4294967296) :
    (SymbolTable.after ops t).Scoped ∧
      (SymbolTable.after ops t).globals = (entered ops t).reverse ++ t.globals := by
  induction ops generalizing t with
  | nil => exact ⟨h, rfl⟩
  | cons op ops ih =>
    have hnext := Nat.le_trans (size_le_after ops (op.apply t)) hsize
    obtain ⟨hscoped, new, hnew⟩ := (t.change_apply op).advances h hnext
    obtain ⟨hscoped', hglobals⟩ := ih hscoped hsize
    refine ⟨hscoped', hglobals.trans ?_⟩
    rw [hnew.globals, entered, hnew.entrants_eq h hscoped hnext, List.reverse_append,
      List.append_assoc]

/-! ## Many symbols -/

/-- So many declarations of one kind, from the first on. -/
def declaring (kind : SymbolKind) (n : Nat) : List Operation :=
  List.replicate n (.install "x" kind .unset)

/-- The numbers of symbols that are installed one after the other into a table of some size. -/
def numbersFrom (size n : Nat) : List SymbolId :=
  (List.range' size n).map fun i => ⟨UInt32.ofNat i⟩

section Many

variable (kind : SymbolKind) (n : Nat) (t : SymbolTable)

theorem after_declaring_succ :
    after (declaring kind (n + 1)) t = after (declaring kind n) (t.install "x" kind .unset).2 := by
  rw [declaring, List.replicate_succ]
  rfl

theorem symbols_after_declaring : (after (declaring kind n) t).symbols =
    t.symbols ++ Array.replicate n ⟨"x", kind, .unset⟩ := by
  induction n generalizing t with
  | zero => simp [after, declaring]
  | succ n ih =>
    have hpush : (t.install "x" kind .unset).2.symbols = t.symbols.push ⟨"x", kind, .unset⟩ := by
      unfold install
      split <;> rfl
    rw [after_declaring_succ, ih, hpush, Array.push_eq_append, Array.append_assoc,
      Array.replicate_succ']

theorem locals_after_declaring : (after (declaring kind n) t).locals =
    if kind = .frameLocal then (numbersFrom t.size n).reverse ++ t.locals else t.locals := by
  induction n generalizing t with
  | zero => simp [after, declaring, numbersFrom]
  | succ n ih =>
    rw [after_declaring_succ, ih, size_install, locals_install]
    split
    · simp [numbersFrom, List.range'_succ, nextId]
    · rfl

theorem size_after_declaring : (after (declaring kind n) empty).size = n := by
  rw [size, symbols_after_declaring]
  simp [empty]

end Many

theorem get?_after_declaring (kind : SymbolKind) {n : Nat} (h : id.index.toNat < n) :
    (after (declaring kind n) empty).get? id = some ⟨"x", kind, .unset⟩ := by
  rw [get?, symbols_after_declaring]
  simp [empty, h]

/-! ## What is handed out and what is found -/

/-- The name that an operation gives to the symbol that it hands out. -/
def Operation.names? : Operation → Option String
  | .install name _ _ | .defineFunction name _ | .defineNative name _ | .defineProperty name _ =>
    some name
  | _ => none

theorem get?_install_self (h : t.size < 4294967296) (name : String) (kind : SymbolKind)
    (value : Value) : (t.install name kind value).2.get? (t.install name kind value).1 =
      some ⟨name, kind, value⟩ := by
  rw [fst_install, get?_install, if_pos (toNat_nextId h)]

/-- What is handed out names a symbol, the one that was asked for.  Only a promotion may give back a
number without one. -/
theorem Scoped.get?_of_mem_perform (h : t.Scoped) {op : Operation}
    (hsize : (op.apply t).size ≤ 4294967296) (hid : id ∈ (op.perform t).1) :
    op = .promote id ∧ t.get? id = none ∨
      ∃ symbol, (op.apply t).get? id = some symbol ∧ ∀ name, op.names? = some name →
        symbol.name = name := by
  have hinstall : ∀ (t : SymbolTable) (name : String) (kind : SymbolKind) (value : Value),
      (t.install name kind value).2.size ≤ 4294967296 → id ∈ [(t.install name kind value).1] →
        (t.install name kind value).2.get? id = some ⟨name, kind, value⟩ := by
    intro t name kind value hsize hid
    rw [size_install] at hsize
    rw [List.mem_singleton.1 hid]
    exact get?_install_self hsize name kind value
  cases op with
  | install name kind value =>
    exact .inr ⟨_, hinstall t name kind value hsize hid, fun _ hname => Option.some.inj hname⟩
  | defineNative name routine =>
    exact .inr ⟨_, hinstall t name _ _ hsize hid, fun _ hname => Option.some.inj hname⟩
  | defineProperty name routine =>
    exact .inr ⟨_, hinstall t name _ _ hsize hid, fun _ hname => Option.some.inj hname⟩
  | installIterator =>
    exact .inr ⟨_, hinstall _ _ _ _ hsize hid, fun _ hname => by cases hname⟩
  | internText text =>
    refine .inr ?_
    simp only [Operation.apply, Operation.perform, Operation.perform.single, internText]
      at hsize hid ⊢
    cases hfound : t.lookupText? text with
    | some found =>
      simp only [hfound] at hid ⊢
      rw [List.mem_singleton.1 hid]
      obtain ⟨symbol, hsymbol, -⟩ := h.exists_of_mem_globals (List.mem_of_find?_eq_some hfound)
      exact ⟨symbol, hsymbol, fun _ hname => by cases hname⟩
    | none =>
      simp only [hfound] at hsize hid ⊢
      exact ⟨_, hinstall _ _ _ _ hsize hid, fun _ hname => by cases hname⟩
  | defineFunction name program =>
    refine .inr ?_
    simp only [Operation.apply, Operation.perform, Operation.perform.single, defineFunction]
      at hsize hid ⊢
    cases hfound : t.findGlobal? name with
    | some found =>
      simp only [hfound] at hid ⊢
      rw [List.mem_singleton.1 hid]
      obtain ⟨symbol, hsymbol, -⟩ := h.exists_of_mem_globals (List.mem_of_find?_eq_some hfound)
      refine ⟨_, get?_modify_of_some hsymbol _, fun _ hname => ?_⟩
      have hnamed : symbol.name = name := by
        simpa [isNamed, hsymbol] using List.find?_some hfound
      exact hnamed.trans (Option.some.inj hname)
    | none =>
      simp only [hfound] at hsize hid ⊢
      exact ⟨_, hinstall _ _ _ _ hsize hid, fun _ hname => Option.some.inj hname⟩
  | promote promoted =>
    rw [List.mem_singleton.1 hid]
    cases hsymbol : t.get? promoted with
    | none => exact .inl ⟨rfl, rfl⟩
    | some symbol =>
      obtain ⟨symbol', hsymbol', -⟩ := (t.change_apply (.promote promoted)).get? hsymbol
      exact .inr ⟨symbol', hsymbol', fun _ hname => by cases hname⟩
  | installArguments => cases hid
  | clearLocals => cases hid
  | takeLocals =>
    obtain ⟨symbol, hsymbol, -⟩ := h.exists_of_mem_locals (List.mem_reverse.1 hid)
    exact .inr ⟨symbol, hsymbol, fun _ hname => by cases hname⟩
  | begin a => cases hid
  | finish a =>
    obtain ⟨symbol, hsymbol, -⟩ := h.exists_of_mem_locals (List.mem_reverse.1 hid)
    obtain ⟨symbol', hsymbol', -⟩ := (t.change_apply (.finish a)).get? hsymbol
    exact .inr ⟨symbol', hsymbol', fun _ hname => by cases hname⟩

theorem find?_eq_getLast? (ids : List SymbolId) (p : SymbolId → Bool) :
    ids.find? p = (ids.reverse.filter p).getLast? := by
  rw [List.filter_reverse, List.getLast?_reverse, List.head?_filter]

/-- Looking a name up finds the last declared variable of that name, or else the last of that name
in the global scope. -/
theorem lookup?_eq (t : SymbolTable) (name : String) :
    t.lookup? name = ((t.declaredLocals.filter (t.isNamed name)).getLast?).or
      ((t.globals.reverse.filter (t.isNamed name)).getLast?) := by
  rw [lookup?, List.find?_append, find?_eq_getLast?, find?_eq_getLast?, declaredLocals]

theorem lookup?_eq_none_iff (t : SymbolTable) (name : String) :
    t.lookup? name = none ↔ ∀ id ∈ t.declaredLocals ++ t.globals, t.isNamed name id = false := by
  simp only [lookup?, declaredLocals, List.find?_eq_none, List.mem_append, List.mem_reverse,
    Bool.not_eq_true]

end SymbolTable

namespace Sample

/-- A macro calls `f`, which is defined once the macro is finished. -/
def forwardCall : List SymbolTable.Operation :=
  [.install "f" .frameLocal .unset, .install "f" .global .unset, .finish (.new {}), .promote ⟨0⟩,
    .defineFunction "f" ⟨0, ⟨#[], []⟩⟩]

end Sample

namespace SymbolTable

/-- The scopes of a table after any operations, as long as the numbers of symbols do not run out.

The global scope lists the symbols that are no variables of frames, each once, and the local scope
lists variables of frames in the order of their numbers.  A name is looked up among the declared
variables, then among the symbols in the order in which they have entered the global scope, each
time from the end.

Whatever operation comes next, it leaves every symbol its number and its name, and the kind changes
from that of a variable of a frame to a global one by promotion of that symbol, or from another kind
to a function by a definition of its name.  The numbers that the operation hands out name symbols,
by the same names for ever; a promotion gives back the number it is given also if there is no symbol
of that number. -/
theorem scopes_stay_consistent (ops : List Operation)
    (hsize : (after ops empty).size ≤ 4294967296) :
    let t := after ops empty
    ((∀ id, id ∈ t.globals ↔ ∃ symbol, t.get? id = some symbol ∧ symbol.kind ≠ .frameLocal) ∧
      t.globals.Nodup) ∧
    ((∀ id ∈ t.declaredLocals, ∃ symbol, t.get? id = some symbol ∧ symbol.kind = .frameLocal) ∧
      t.declaredLocals.Pairwise fun older newer => older.index < newer.index) ∧
    (∀ name, t.lookup? name = ((t.declaredLocals.filter (t.isNamed name)).getLast?).or
        (((entered ops empty).filter (t.isNamed name)).getLast?) ∧
      (t.lookup? name = none ↔
        ∀ id ∈ t.declaredLocals ++ t.globals, t.isNamed name id = false)) ∧
    ∀ op : Operation,
      (∀ id symbol, t.get? id = some symbol → ∃ symbol', (op.apply t).get? id = some symbol' ∧
        symbol'.name = symbol.name ∧ op.Turns id symbol symbol'.kind) ∧
      ((op.apply t).size ≤ 4294967296 → ∀ id ∈ (op.perform t).1,
        op = .promote id ∧ t.get? id = none ∨
        ∃ symbol, (op.apply t).get? id = some symbol ∧
          (∀ name, op.names? = some name → symbol.name = name) ∧
          ∀ later, ∃ symbol', (after later (op.apply t)).get? id = some symbol' ∧
            symbol'.name = symbol.name) := by
  obtain ⟨hscoped, hglobals⟩ := scoped_empty.after ops hsize
  refine ⟨⟨fun id => (hscoped.globals id).trans isShared_iff, hscoped.once⟩, ⟨fun id hid => ?_, ?_⟩,
    fun name => ⟨?_, lookup?_eq_none_iff _ name⟩, fun op => ⟨fun id symbol hsymbol => ?_, ?_⟩⟩
  · exact hscoped.exists_of_mem_locals (List.mem_reverse.1 hid)
  · exact List.pairwise_reverse.2 hscoped.declared
  · rw [lookup?_eq, hglobals]
    simp [empty]
  · obtain ⟨symbol', hsymbol', hname, hturns⟩ :=
      ((after ops empty).change_apply op).get? hsymbol
    exact ⟨symbol', hsymbol', hname, hturns hscoped⟩
  · intro hnext id hid
    rcases hscoped.get?_of_mem_perform hnext hid with hnone | ⟨symbol, hsymbol, hnamed⟩
    · exact .inl hnone
    · exact .inr ⟨symbol, hsymbol, hnamed, fun later => name_after later hsymbol⟩

/-- A variable whose scope is gone becomes global.  It hides the older global of its name, and the
definition takes its place. -/
theorem lookup?_forwardCall :
    (after Sample.forwardCall empty).size ≤ 4294967296 ∧
    entered Sample.forwardCall empty = [⟨1⟩, ⟨0⟩] ∧
    (after Sample.forwardCall empty).lookup? "f" = some ⟨0⟩ ∧
    ∃ symbol, (after Sample.forwardCall empty).get? ⟨0⟩ = some symbol ∧
      symbol.kind ≠ .frameLocal := by
  have hsize : (after Sample.forwardCall empty).size ≤ 4294967296 := by decide +kernel
  obtain ⟨⟨hglobals, -⟩, -, hlookup, -⟩ := scopes_stay_consistent Sample.forwardCall hsize
  refine ⟨hsize, by decide +kernel, ?_, (hglobals ⟨0⟩).1 (by decide +kernel)⟩
  rw [(hlookup "f").1]
  decide +kernel

end SymbolTable

end MacroMachine
