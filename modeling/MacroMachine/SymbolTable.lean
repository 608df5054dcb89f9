import MacroMachine.Value

/-!
# The symbol table

Symbols are numbered as they are installed and are never removed, so a number keeps naming the same
symbol whatever scope it is in.  The local scope lasts while a program is put together; the global
scope lasts as long as the table.  Both are kept newest first, which is the order in which names are
looked up: a newer symbol hides an older one of the same name.

*Constants.*  A string constant is installed once for each text (`internText`).

*Functions.*  Defining a function takes over the newest global of its name, which may have been
referred to before its definition (`promote`, `defineFunction`).
-/

namespace MacroMachine

/-- What a symbol stands for. -/
inductive SymbolKind where
  /-- A literal. -/
  | constant
  | global
  /-- A variable of a frame; its value is its place there once the program is finished. -/
  | frameLocal
  /-- An argument of the running macro; its value is the argument's index, or -1 for their
  number. -/
  | argument
  /-- A variable that a routine of the host computes each time it is read. -/
  | property
  /-- A routine of the host. -/
  | native
  /-- A compiled macro. -/
  | function
deriving DecidableEq, Repr, Inhabited

/-- A named entry of the symbol table. -/
structure Symbol where
  name : String
  kind : SymbolKind
  value : Value
deriving DecidableEq, Repr, Inhabited

/-- Every symbol ever installed, and the two scopes. -/
structure SymbolTable where
  symbols : Array Symbol
  /-- The global scope, newest first. -/
  globals : List SymbolId
  /-- The local scope, newest first. -/
  locals : List SymbolId
  /-- How many string constants have been named. -/
  textCount : Nat
  /-- How many iterator variables have been named. -/
  iteratorCount : Nat
deriving DecidableEq, Repr, Inhabited

namespace SymbolTable

/-- A table without symbols. -/
def empty : SymbolTable :=
  { symbols := #[], globals := [], locals := [], textCount := 0, iteratorCount := 0 }

/-- The number of symbols. -/
def size (t : SymbolTable) : Nat :=
  t.symbols.size

/-- The symbol with a number. -/
def get? (t : SymbolTable) (id : SymbolId) : Option Symbol :=
  t.symbols[id.index.toNat]?

/-- The name of a symbol, or a stand-in if there is none. -/
def name (t : SymbolTable) (id : SymbolId) : String :=
  match t.get? id with
  | some symbol => symbol.name
  | none => "<unknown symbol>"

/-- Changes a symbol. -/
def modify (t : SymbolTable) (id : SymbolId) (f : Symbol → Symbol) : SymbolTable :=
  { t with symbols := t.symbols.modify id.index.toNat f }

/-- Replaces the value of a symbol. -/
def setValue (t : SymbolTable) (id : SymbolId) (value : Value) : SymbolTable :=
  t.modify id fun symbol => { symbol with value := value }

/-- Whether a number names a symbol called `name`. -/
def isNamed (t : SymbolTable) (name : String) (id : SymbolId) : Bool :=
  (t.get? id).any (·.name == name)

/-- Adds a symbol, to the local scope if it is a variable of a frame and else to the global one. -/
def install (t : SymbolTable) (name : String) (kind : SymbolKind) (value : Value) :
    SymbolId × SymbolTable :=
  let id : SymbolId := ⟨UInt32.ofNat t.size⟩
  let t := { t with symbols := t.symbols.push { name, kind, value } }
  if kind = .frameLocal then (id, { t with locals := id :: t.locals })
  else (id, { t with globals := id :: t.globals })

/-- The newest global called `name`. -/
def findGlobal? (t : SymbolTable) (name : String) : Option SymbolId :=
  t.globals.find? (t.isNamed name)

/-- The newest symbol called `name`, in the local scope if it has one. -/
def lookup? (t : SymbolTable) (name : String) : Option SymbolId :=
  (t.locals ++ t.globals).find? (t.isNamed name)

/-- Whether a number names a constant that holds `text`. -/
def isTextConstant (t : SymbolTable) (text : String) (id : SymbolId) : Bool :=
  (t.get? id).any fun symbol => symbol.kind == .constant && symbol.value == .text text

/-- The newest constant that holds `text`. -/
def lookupText? (t : SymbolTable) (text : String) : Option SymbolId :=
  t.globals.find? (t.isTextConstant text)

/-- The constant that holds `text`, installed if there is none yet. -/
def internText (t : SymbolTable) (text : String) : SymbolId × SymbolTable :=
  match t.lookupText? text with
  | some id => (id, t)
  | none =>
    { t with textCount := t.textCount + 1 }.install
      ("string #" ++ toString t.textCount) .constant (.text text)

/-- A new hidden variable for the iterator of a loop. -/
def installIterator (t : SymbolTable) : SymbolId × SymbolTable :=
  { t with iteratorCount := t.iteratorCount + 1 }.install
    ("aryiter " ++ toString t.iteratorCount) .frameLocal .unset

/-- Moves a variable of the local scope to the global scope, under the number it has. -/
def promote (t : SymbolTable) (id : SymbolId) : SymbolTable :=
  match t.get? id with
  | some symbol =>
    if symbol.kind = .frameLocal then
      { t.modify id (fun symbol => { symbol with kind := .global }) with
        locals := t.locals.filter (· != id)
        globals := id :: t.globals }
    else t
  | none => t

/-- Binds a name to a program, in place of the newest global of that name if there is one. -/
def defineFunction (t : SymbolTable) (name : String) (program : ProgramRef) :
    SymbolId × SymbolTable :=
  match t.findGlobal? name with
  | some id =>
    (id, t.modify id fun symbol => { symbol with kind := .function, value := .program program })
  | none => t.install name .function (.program program)

/-- Binds a name to a routine of the host. -/
def defineNative (t : SymbolTable) (name : String) (routine : NativeId) :
    SymbolId × SymbolTable :=
  t.install name .native (.native routine)

/-- Binds a name to a variable that a routine of the host computes. -/
def defineProperty (t : SymbolTable) (name : String) (routine : NativeId) :
    SymbolId × SymbolTable :=
  t.install name .property (.native routine)

/-- The index that stands for the number of arguments. -/
def argumentCountIndex : Int32 := -1

/-- The names of the arguments that every macro can refer to, with their indices. -/
def argumentNames : List (String × Int32) :=
  (List.range 9).map (fun i => ("$" ++ toString (i + 1), Int32.ofNat i)) ++
    [("$n_args", argumentCountIndex)]

/-- Installs the symbols of the arguments. -/
def installArguments (t : SymbolTable) : SymbolTable :=
  argumentNames.foldl (fun t (name, index) => (t.install name .argument (.int index)).2) t

/-- A table that holds the symbols of the arguments. -/
def withArguments : SymbolTable :=
  empty.installArguments

/-- The local scope, in the order of declaration. -/
def declaredLocals (t : SymbolTable) : List SymbolId :=
  t.locals.reverse

/-- Empties the local scope. -/
def clearLocals (t : SymbolTable) : SymbolTable :=
  { t with locals := [] }

/-! ## Laws of changes -/

/-- Changing a symbol changes that symbol. -/
theorem get?_modify (t : SymbolTable) (f : Symbol → Symbol) (id : SymbolId) :
    (t.modify id f).get? id = (t.get? id).map f := by
  simp [modify, get?, Array.getElem?_modify]

/-- Changing a symbol changes no other one. -/
theorem get?_modify_of_ne (t : SymbolTable) (f : Symbol → Symbol) {id other : SymbolId}
    (h : other ≠ id) : (t.modify id f).get? other = t.get? other := by
  obtain ⟨i⟩ := id
  obtain ⟨j⟩ := other
  have hij : i.toNat ≠ j.toNat := by
    intro hn
    exact h (by rw [UInt32.toNat_inj.mp hn])
  simp [modify, get?, Array.getElem?_modify, hij]

end SymbolTable

end MacroMachine
