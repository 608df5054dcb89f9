import MacroMachine.Program.Assembler

/-!
# Drafts

A draft is a program written with names: symbols by their names, constants by their values, branch
targets by labels.  Assembling a draft begins a new program, declares its local variables, adds
its slots from left to right and finishes it.  A name that no symbol has becomes a new global; a
label may be used before it is bound, and one that is never bound leads to the end of the program.
-/

namespace MacroMachine

/-- A local variable of a draft. -/
inductive DraftLocal where
  | named (name : String)
  /-- A hidden variable for an iterator, called by a nickname in this draft only. -/
  | iterator (nickname : String)
deriving DecidableEq, Repr, Inhabited

/-- A piece of a draft. -/
inductive DraftToken where
  | opcode (opcode : Opcode)
  | immediate (n : Int64)
  /-- A symbol by its number. -/
  | symbolId (id : SymbolId)
  /-- A symbol by its name. -/
  | symbol (name : String)
  /-- The opcode and operand that push a string constant. -/
  | text (text : String)
  /-- The opcode and operand that push a new constant. -/
  | constant (value : Value)
  /-- Binds a label to the next slot. -/
  | label (name : String)
  /-- A branch operand that leads to a label. -/
  | branchTo (label : String)
deriving DecidableEq, Repr, Inhabited

/-- A draft that is being assembled. -/
structure Draft where
  assembler : Assembler
  symbols : SymbolTable
  /-- The nicknames of iterator variables. -/
  nicknames : List (String × SymbolId)
  /-- The labels bound so far, newest first. -/
  labels : List (String × Nat)
  /-- Branch operands added before their label was bound. -/
  awaiting : List (String × Nat)

/-- A step of assembling a draft. -/
abbrev Drafting (α : Type) := EStateM AssemblyError Draft α

namespace Draft

/-- An operation on the assembler of a draft. -/
def assembly {α : Type} (x : Assembly α) : Drafting α := fun d =>
  match x d.assembler with
  | .ok a assembler => .ok a { d with assembler }
  | .error e assembler => .error e { d with assembler }

/-- A change of the symbol table of a draft that gives a symbol. -/
def installing (f : SymbolTable → SymbolId × SymbolTable) : Drafting SymbolId := fun d =>
  let (id, symbols) := f d.symbols
  .ok id { d with symbols }

/-- Declares a local variable. -/
def declare : DraftLocal → Drafting Unit
  | .named name => do
    let _ ← installing (·.install name .frameLocal .unset)
  | .iterator nickname => do
    let id ← installing (·.installIterator)
    modify fun d => { d with nicknames := (nickname, id) :: d.nicknames }

/-- The symbol of a name: a nickname, a symbol of the table, or else a new global. -/
def symbolNamed (name : String) : Drafting SymbolId := do
  let d ← get
  match (d.nicknames.lookup name).or (d.symbols.lookup? name) with
  | some id => return id
  | none => installing (·.install name .global .unset)

/-- Adds the slots that push a symbol. -/
def pushSymbol (id : SymbolId) : Drafting Unit := do
  let _ ← assembly (Assembler.emitOpcode .pushSymbol)
  let _ ← assembly (Assembler.emitSymbol id)

/-- The name of a constant. -/
def constantName : Value → String
  | .int n => Numeral.render n
  | _ => "const"

/-- Adds one piece of a draft. -/
def add : DraftToken → Drafting Unit
  | .opcode opcode => do
    let _ ← assembly (Assembler.emitOpcode opcode)
  | .immediate n => do
    let _ ← assembly (Assembler.emitImmediate n)
  | .symbolId id => do
    let _ ← assembly (Assembler.emitSymbol id)
  | .symbol name => do
    let id ← symbolNamed name
    let _ ← assembly (Assembler.emitSymbol id)
  | .text text => do
    pushSymbol (← installing (·.internText text))
  | .constant value => do
    pushSymbol (← installing (·.install (constantName value) .constant value))
  | .label name => do
    let d ← get
    let target := d.assembler.position
    (d.awaiting.filter (·.1 == name)).forM fun (_, site) => assembly (Assembler.patch site target)
    modify fun d => { d with labels := (name, target) :: d.labels }
  | .branchTo label => do
    let target := (← get).labels.lookup label
    let site ← assembly (Assembler.emitBranch target)
    if target.isNone then
      modify fun d => { d with awaiting := (label, site) :: d.awaiting }

/-- Assembles a draft: the program, or why the assembler refused it, with the assembler and the
symbol table as they then are. -/
def assemble (a : Assembler) (t : SymbolTable) (locals : List DraftLocal)
    (tokens : List DraftToken) : Except AssemblyError Program × Assembler × SymbolTable :=
  let (assembler, symbols) := a.begin t
  let drafting : Drafting Unit := do
    locals.forM declare
    tokens.forM add
  match drafting { assembler, symbols, nicknames := [], labels := [], awaiting := [] } with
  | .ok () d =>
    let (program, assembler, symbols) := d.assembler.finish d.symbols
    (.ok program, assembler, symbols)
  | .error e d => (.error e, d.assembler, d.symbols)

end Draft

end MacroMachine
