import MacroMachine.Proofs.DrainedArrays
import MacroMachine.Proofs.TextConstants

/-!
# Assembling the demonstration macro

The demonstration macro can always be assembled, and this module says what comes out.

*Code.*  The slots of the macro are listed in pieces: what comes before the loop, its condition and
body, and what comes after it (`Names.slots`).  An assembler that has taken some slots, has some
open operands and is in some loops is `staged`; each operation on it has an equation, and put
together they say that the assembler takes exactly these slots (`code_new`).

*Symbols.*  Adding a symbol to a table leaves all others as they are (`SymbolTable.Adds`).  So the
constants of the macro keep their values, and finishing the program gives its three variables their
places (`build_eq_ok`).
-/

namespace MacroMachine

theorem Assembly.bind_of_ok {α β : Type} {x : Assembly α} {f : α → Assembly β} {a b : Assembler}
    {v : α} (h : x a = .ok v b) : (x >>= f) a = f v b := by
  show EStateM.bind x f a = f v b
  rw [EStateM.bind, h]

namespace Demo

open Assembler (relative)

/-! ## The code -/

namespace Names

variable (n : Names)

/-- The total is zero and the counter is one. -/
def opening : List Instruction :=
  [.op .pushSymbol, .symbol n.zero, .op .assign, .symbol n.total,
    .op .pushSymbol, .symbol n.one, .op .assign, .symbol n.i]

/-- The condition of the loop, but for its exit. -/
def condition : List Instruction :=
  [.op .pushSymbol, .symbol n.i, .op .pushSymbol, .symbol n.bound, .op .lessEqual, .op .branchFalse]

/-- The body of the loop and the way back to its condition, but for the distance. -/
def body : List Instruction :=
  [.op .pushSymbol, .symbol n.total, .op .pushSymbol, .symbol n.i, .op .add, .op .assign,
    .symbol n.total, .op .pushSymbol, .symbol n.i, .op .increment, .op .assign, .symbol n.i,
    .op .branch]

/-- The total is stored in a new array. -/
def storing : List Instruction :=
  [.op .pushArray, .symbol n.table, .immediate 1, .op .pushSymbol, .symbol n.key,
    .op .pushSymbol, .symbol n.total, .op .setElement, .immediate 1]

/-- The printing routine is called. -/
def printing : List Instruction :=
  .op .pushSymbol :: .symbol n.key :: List.append (pushElement n.table n.key)
    [.op .call, .symbol n.print, .immediate 2]

/-- The total is returned. -/
def returning : List Instruction :=
  pushElement n.table n.key ++ [.op .returnValue]

/-- All slots of the macro. -/
def slots : List Instruction :=
  n.opening ++ n.condition ++ [.immediate (relative 14 29)] ++ n.body ++
    [.immediate (relative 28 8)] ++ n.storing ++ n.printing ++ n.returning

end Names

/-- A program under construction, within the usual limits. -/
def staged (done : List Instruction) (pending : List Nat) (loops : List LoopEntry) : Assembler :=
  { limits := {}, code := done.toArray, pending, loops }

section Assembling

variable (done : List Instruction) (pending : List Nat) (loops : List LoopEntry)

theorem position_staged : (staged done pending loops).position = done.length :=
  List.size_toArray

theorem emit_staged (slot : Instruction) (hroom : done.length < 4096) :
    Assembler.emit slot (staged done pending loops) =
      .ok done.length (staged (done ++ [slot]) pending loops) := by
  have hsize : ¬ (4096 ≤ done.length) := Nat.not_le_of_lt hroom
  simp [Assembler.emit, staged, hsize]

/-- Slots for which there is room are added. -/
theorem emitAll_staged (slots : List Instruction) (hroom : done.length + slots.length ≤ 4096) :
    emitAll slots (staged done pending loops) =
      .ok () (staged (done ++ slots) pending loops) := by
  induction slots generalizing done with
  | nil =>
    rw [List.append_nil]
    rfl
  | cons slot slots ih =>
    rw [List.length_cons] at hroom
    have hrest := ih (done ++ [slot]) (by rw [List.length_append, List.length_singleton]; omega)
    rw [List.append_assoc] at hrest
    have hfirst : (do let _ ← Assembler.emit slot : Assembly Unit) (staged done pending loops) =
        .ok () (staged (done ++ [slot]) pending loops) :=
      Assembly.bind_of_ok (emit_staged done pending loops slot (by omega))
    exact (Assembly.bind_of_ok hfirst).trans hrest

theorem emitBranch_none_staged (hroom : done.length < 4096) :
    Assembler.emitBranch none (staged done pending loops) = .ok done.length
      (staged (done ++ [.immediate 0]) (done.length :: pending) loops) := by
  simp only [Assembler.emitBranch, emit_staged done pending loops _ hroom]
  rfl

theorem emitBranch_some_staged (target : Nat) (hroom : done.length < 4096) :
    Assembler.emitBranch (some target) (staged done pending loops) = .ok done.length
      (staged (done ++ [.immediate (relative done.length target)]) pending loops) := by
  simp only [Assembler.emitBranch, position_staged, emit_staged done pending loops _ hroom]

variable {done} {site : Nat} {offset : Int64}

theorem isBranchSite_staged (h : done[site]? = some (.immediate offset)) :
    (staged done pending loops).isBranchSite site = true :=
  Assembler.isBranchSite_iff.2 ⟨offset, List.getElem?_toArray.trans h⟩

theorem addBreak_staged (h : done[site]? = some (.immediate offset)) :
    Assembler.addBreak site (staged done pending [.marker]) =
      .ok () (staged done pending [.breakSite site, .marker]) := by
  rw [Assembler.addBreak, isBranchSite_staged _ _ h]
  rfl

/-- Closing the loop makes its only exit lead to a target. -/
theorem closeLoop_staged (target other : Nat) (h : done[site]? = some (.immediate offset)) :
    Assembler.closeLoop target other (staged done [site] [.breakSite site, .marker]) =
      .ok () (staged (done.set site (.immediate (relative site target))) [] []) := by
  have hsite := isBranchSite_staged [site] [.breakSite site, .marker] h
  have hentry : (LoopEntry.breakSite site).site? = some site := rfl
  refine (Assembler.closeEntries_cons hentry hsite).trans ?_
  simp [Assembler.closeEntries, Assembler.patched, staged, LoopEntry.target]

/-- A program without open operands is finished as it is. -/
theorem code_finish_staged (t : SymbolTable) :
    ((staged done [] loops).finish t).1.code = done.toArray :=
  rfl

end Assembling

/-- A new assembler takes all slots of the macro. -/
theorem code_new (n : Names) : code n (.new {}) = .ok () (staged n.slots [] []) := by
  show code n (staged [] [] []) = _
  have hopen : ∀ done, Assembler.openLoop (staged done [] []) = .ok () (staged done [] [.marker]) :=
    fun _ => rfl
  rw [code, Assembly.bind_of_ok (emitAll_staged _ _ _ _ (by simp)),
    Assembly.bind_of_ok (emitAll_staged _ _ _ _ (by simp))]
  -- the loop: its exit is registered when it is added, and patched when the loop is closed
  rw [Assembly.bind_of_ok (hopen _), Assembly.get_bind,
    Assembly.bind_of_ok (emitAll_staged _ _ _ _ (by simp)),
    Assembly.bind_of_ok (emitAll_staged _ _ _ _ (by simp)),
    Assembly.bind_of_ok (emitBranch_none_staged _ _ _ (by simp)),
    Assembly.bind_of_ok (addBreak_staged _ rfl),
    Assembly.bind_of_ok (emitAll_staged _ _ _ _ (by simp)),
    Assembly.bind_of_ok (emitAll_staged _ _ _ _ (by simp)), Assembly.get_bind,
    Assembly.bind_of_ok (emitAll_staged _ _ _ _ (by simp)),
    Assembly.bind_of_ok (emitBranch_some_staged _ _ _ _ (by simp)), Assembly.get_bind,
    Assembly.bind_of_ok (closeLoop_staged _ _ rfl)]
  rw [Assembly.bind_of_ok (emitAll_staged _ _ _ _ (by simp)),
    Assembly.bind_of_ok (emitAll_staged _ _ _ _ (by simp)),
    Assembly.bind_of_ok (emitAll_staged _ _ _ _ (by simp)),
    Assembly.bind_of_ok (emitAll_staged _ _ _ _ (by simp [pushElement])),
    Assembly.bind_of_ok (emitAll_staged _ _ _ _ (by simp [pushElement])),
    Assembly.bind_of_ok (emitAll_staged _ _ _ _ (by simp [pushElement])),
    emitAll_staged _ _ _ _ (by simp [pushElement])]
  simp [Names.slots, Names.opening, Names.condition, Names.body, Names.storing,
    Names.printing, Names.returning, pushElement, position_staged]

/-! ## The symbols -/

end Demo

namespace SymbolTable

variable {t t' t'' : SymbolTable} {id : SymbolId} {symbol : Symbol}

/-- The number names a symbol of this kind and with this value. -/
def Holds (t : SymbolTable) (id : SymbolId) (kind : SymbolKind) (value : Value) : Prop :=
  ∃ name, t.get? id = some ⟨name, kind, value⟩

/-- The symbols of a table are symbols of another one, under the same numbers. -/
def Within (t t' : SymbolTable) : Prop :=
  ∀ id symbol, t.get? id = some symbol → t'.get? id = some symbol

theorem Within.trans (h : t.Within t') (h' : t'.Within t'') : t.Within t'' :=
  fun id symbol hget => h' id symbol (h id symbol hget)

theorem Holds.within {kind : SymbolKind} {value : Value} (h : t.Holds id kind value)
    (hwithin : t.Within t') : t'.Holds id kind value := by
  obtain ⟨name, hget⟩ := h
  exact ⟨name, hwithin id _ hget⟩

theorem within_install (t : SymbolTable) (name : String) (kind : SymbolKind) (value : Value) :
    t.Within (t.install name kind value).2 := by
  intro id symbol hget
  rw [get?_install, if_neg (Nat.ne_of_lt (lt_size_of_get? hget)), hget]

/-- A symbol has been added to a table, or has been found there, and there is room for some more. -/
structure Adds (t : SymbolTable) (room : Nat) (id : SymbolId) (t' : SymbolTable) (kind : SymbolKind)
    (value : Value) : Prop where
  scopes : t'.Scoped
  size : t'.size + room ≤ 4294967296
  within : t.Within t'
  holds : t'.Holds id kind value
  locals : t'.locals = if kind = .frameLocal then id :: t.locals else t.locals

theorem adds_install (h : t.Scoped) {room : Nat} (hsize : t.size + (room + 1) ≤ 4294967296)
    (name : String) (kind : SymbolKind) (value : Value) :
    ∃ id t', t.install name kind value = (id, t') ∧ t.Adds room id t' kind value := by
  have hroom : (t.install name kind value).2.size + room ≤ 4294967296 := by
    rw [size_install]
    omega
  refine ⟨(t.install name kind value).1, (t.install name kind value).2, rfl,
    h.install (by omega) name kind value, hroom, t.within_install name kind value,
    ⟨name, get?_install_self (by omega) name kind value⟩, ?_⟩
  rw [locals_install, fst_install]

theorem adds_internText (h : t.Scoped) {room : Nat} (hsize : t.size + (room + 1) ≤ 4294967296)
    (text : String) :
    ∃ id t', t.internText text = (id, t') ∧ t.Adds room id t' .constant (.text text) := by
  rw [internText]
  cases hfound : t.lookupText? text with
  | none =>
    have hcounted : { t with textCount := t.textCount + 1 }.Scoped :=
      ⟨h.globals, h.once, h.locals, h.declared⟩
    obtain ⟨id, t', heq, hscoped, hroom, hwithin, hholds, hlocals⟩ := adds_install hcounted hsize
      ("string #" ++ toString t.textCount) .constant (.text text)
    exact ⟨id, t', heq, hscoped, hroom, hwithin, hholds, hlocals⟩
  | some id =>
    refine ⟨id, t, rfl, h, Nat.le_of_succ_le hsize, fun _ _ hget => hget, ?_, rfl⟩
    obtain ⟨⟨name, kind, value⟩, hget, htext⟩ :=
      Option.bind_eq_some_iff.1 (textOf?_of_lookupText? hfound)
    obtain ⟨rfl, rfl⟩ := Symbol.constantText?_eq_some_iff.1 htext
    exact ⟨name, hget⟩

end SymbolTable

namespace Demo

/-- The constants of the macro and the printing routine are symbols of the table. -/
structure Names.Declared (n : Names) (limit : Int32) (routine : NativeId) (t : SymbolTable) :
    Prop where
  zero : t.Holds n.zero .constant (.int 0)
  one : t.Holds n.one .constant (.int 1)
  bound : t.Holds n.bound .constant (.int limit)
  key : t.Holds n.key .constant (.text "sum")
  print : t.Holds n.print .native (.native routine)

section Symbols

variable {t : SymbolTable} {print : SymbolId} {routine : NativeId}

/-- In a table that is large enough, all symbols of the macro can be declared.  Its variables are
the only new ones in the local scope. -/
theorem declare_eq (h : t.Scoped) (hsize : t.size + 7 ≤ 4294967296)
    (hprint : t.Holds print .native (.native routine)) (limit : Int32) :
    ∃ n t', declare t print limit = (n, t') ∧ t'.Scoped ∧ n.Declared limit routine t' ∧
      t'.locals = n.table :: n.i :: n.total :: t.locals := by
  obtain ⟨total, t₁, htotal, h₁⟩ := SymbolTable.adds_install h hsize "total" .frameLocal .unset
  obtain ⟨i, t₂, hi, h₂⟩ := SymbolTable.adds_install h₁.scopes h₁.size "i" .frameLocal .unset
  obtain ⟨table, t₃, htable, h₃⟩ :=
    SymbolTable.adds_install h₂.scopes h₂.size "table" .frameLocal .unset
  obtain ⟨zero, t₄, hzero, h₄⟩ :=
    SymbolTable.adds_install h₃.scopes h₃.size (Numeral.render 0) .constant (.int 0)
  obtain ⟨one, t₅, hone, h₅⟩ :=
    SymbolTable.adds_install h₄.scopes h₄.size (Numeral.render 1) .constant (.int 1)
  obtain ⟨bound, t₆, hbound, h₆⟩ :=
    SymbolTable.adds_install h₅.scopes h₅.size (Numeral.render limit) .constant (.int limit)
  obtain ⟨key, t₇, hkey, h₇⟩ := SymbolTable.adds_internText h₆.scopes h₆.size "sum"
  refine ⟨⟨print, total, i, table, zero, one, bound, key⟩, t₇, ?_, h₇.scopes, ?_, ?_⟩
  · simp only [declare, installInt, htotal, hi, htable, hzero, hone, hbound, hkey]
  · have hlast := h₆.within.trans h₇.within
    have hvariables := h₁.within.trans (h₂.within.trans h₃.within)
    exact ⟨h₄.holds.within (h₅.within.trans hlast), h₅.holds.within hlast,
      h₆.holds.within h₇.within, h₇.holds,
      hprint.within (hvariables.trans (h₄.within.trans (h₅.within.trans hlast)))⟩
  · calc t₇.locals = t₃.locals := by rw [h₇.locals, h₆.locals, h₅.locals, h₄.locals]; rfl
      _ = table :: i :: total :: t.locals := by rw [h₃.locals, h₂.locals, h₁.locals]; rfl

/-- Finishing a program changes the symbols of its variables only. -/
theorem holds_finish (a : Assembler) (h : t.Scoped) {id : SymbolId} {kind : SymbolKind}
    {value : Value} (hid : t.Holds id kind value) (hkind : kind ≠ .frameLocal) :
    (a.finish t).2.2.Holds id kind value := by
  obtain ⟨name, hget⟩ := hid
  have hnotMem : id ∉ t.declaredLocals := by
    intro hmem
    have hlocal := h.locals id (List.mem_reverse.1 hmem)
    rw [SymbolTable.kind?_of_get? hget] at hlocal
    exact hkind (Option.some.inj hlocal)
  exact ⟨name, (SymbolTable.get?_place_of_notMem _ 0 t.clearLocals hnotMem).trans hget⟩

/-- What assembling the macro gives: its code, its variables with their places, and the symbols that
it refers to. -/
structure Assembled (n : Names) (limit : Int32) (routine : NativeId) (p : Program)
    (t : SymbolTable) : Prop where
  code : p.code = n.slots.toArray
  locals : p.locals = [n.total, n.i, n.table]
  places : ∀ i id, p.locals[i]? = some id → t.Places id i
  declared : n.Declared limit routine t

theorem build_of_code {limit : Int32} {n : Names} {t' : SymbolTable} {a : Assembler}
    (hdeclare : declare t.clearLocals print limit = (n, t'))
    (hcode : code n (.new {}) = .ok () a) :
    build t print limit = .ok ((a.finish t').1, (a.finish t').2.2) := by
  -- the slots do not matter here, and nothing shall look at them
  unfold build
  generalize code = emitted at *
  have hlimits : (Assembler.new {}).limits = {} := rfl
  simp only [Assembler.begin, hlimits, hdeclare, hcode]

/-- In a table that is large enough, the macro can be assembled. -/
theorem build_eq_ok (h : t.Scoped) (hsize : t.size + 7 ≤ 4294967296)
    (hprint : t.Holds print .native (.native routine)) (limit : Int32) :
    ∃ n p t', build t print limit = .ok (p, t') ∧ Assembled n limit routine p t' := by
  obtain ⟨n, t₁, hdeclare, hscoped, hdeclared, hlocals⟩ :=
    declare_eq (t := t.clearLocals) h.clearLocals hsize hprint limit
  have hbuild := build_of_code hdeclare (code_new n)
  have hcode : ((staged n.slots [] []).finish t₁).1.code = n.slots.toArray :=
    code_finish_staged [] t₁
  -- from here on it does not matter which slots the program has
  generalize staged n.slots [] [] = a at hbuild hcode
  refine ⟨n, _, _, hbuild, hcode, congrArg List.reverse hlocals, fun i id hi => ?_, ?_⟩
  · refine Assembler.places_finish _ hscoped ?_ hi
    rw [hlocals]
    exact Nat.le_of_ble_eq_true rfl
  · exact ⟨holds_finish _ hscoped hdeclared.zero (by decide),
      holds_finish _ hscoped hdeclared.one (by decide),
      holds_finish _ hscoped hdeclared.bound (by decide),
      holds_finish _ hscoped hdeclared.key (by decide),
      holds_finish _ hscoped hdeclared.print (by decide)⟩

end Symbols

end Demo

end MacroMachine
