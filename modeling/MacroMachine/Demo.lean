import MacroMachine.Machine.Run
import MacroMachine.Program.Assembler
import MacroMachine.Program.Listing

/-!
# The demonstration macro

A command line that assembles one macro, may list it, and runs it to its end in slices:

```text
total = 0
for (i = 1; i <= limit; i++)
    total += i
table["sum"] = total
t_print("sum", table["sum"])
return table["sum"]
```

Nothing here touches the outside: the command line maps its arguments to a transcript, the texts
that it writes and the code that it exits with.
-/

namespace MacroMachine.Demo

/-! ## The macro -/

/-- Adds some slots. -/
def emitAll (slots : List Instruction) : Assembly Unit :=
  slots.forM fun slot => do
    let _ ← Assembler.emit slot

/-- The symbols that the macro refers to. -/
structure Names where
  print : SymbolId
  total : SymbolId
  i : SymbolId
  table : SymbolId
  zero : SymbolId
  one : SymbolId
  bound : SymbolId
  key : SymbolId

/-- Installs a number as a constant. -/
def installInt (t : SymbolTable) (n : Int32) : SymbolId × SymbolTable :=
  t.install (Numeral.render n) .constant (.int n)

/-- Installs the symbols of the macro. -/
def declare (t : SymbolTable) (print : SymbolId) (limit : Int32) : Names × SymbolTable :=
  let (total, t) := t.install "total" .frameLocal .unset
  let (i, t) := t.install "i" .frameLocal .unset
  let (table, t) := t.install "table" .frameLocal .unset
  let (zero, t) := installInt t 0
  let (one, t) := installInt t 1
  let (bound, t) := installInt t limit
  let (key, t) := t.internText "sum"
  ({ print, total, i, table, zero, one, bound, key }, t)

/-- The slots that push an element of an array. -/
def pushElement (array key : SymbolId) : List Instruction :=
  [.op .pushArray, .symbol array, .immediate 0, .op .pushSymbol, .symbol key,
    .op .element, .immediate 1]

/-- The slots of the macro. -/
def code (n : Names) : Assembly Unit := do
  emitAll [.op .pushSymbol, .symbol n.zero, .op .assign, .symbol n.total]
  emitAll [.op .pushSymbol, .symbol n.one, .op .assign, .symbol n.i]
  -- condition
  Assembler.openLoop
  let top := (← get).position
  emitAll [.op .pushSymbol, .symbol n.i, .op .pushSymbol, .symbol n.bound, .op .lessEqual]
  emitAll [.op .branchFalse]
  let exit ← Assembler.emitBranch none
  Assembler.addBreak exit
  -- body
  emitAll [.op .pushSymbol, .symbol n.total, .op .pushSymbol, .symbol n.i, .op .add]
  emitAll [.op .assign, .symbol n.total]
  -- increment
  let next := (← get).position
  emitAll [.op .pushSymbol, .symbol n.i, .op .increment, .op .assign, .symbol n.i, .op .branch]
  let _ ← Assembler.emitBranch (some top)
  let after := (← get).position
  Assembler.closeLoop after next
  -- table["sum"] = total
  emitAll [.op .pushArray, .symbol n.table, .immediate 1, .op .pushSymbol, .symbol n.key]
  emitAll [.op .pushSymbol, .symbol n.total, .op .setElement, .immediate 1]
  -- t_print("sum", table["sum"])
  emitAll [.op .pushSymbol, .symbol n.key]
  emitAll (pushElement n.table n.key)
  emitAll [.op .call, .symbol n.print, .immediate 2]
  -- return table["sum"]
  emitAll (pushElement n.table n.key)
  emitAll [.op .returnValue]

/-- Assembles the macro. -/
def build (t : SymbolTable) (print : SymbolId) (limit : Int32) :
    Except AssemblyError (Program × SymbolTable) :=
  let (a, t) := (Assembler.new {}).begin t
  let (names, t) := declare t print limit
  match code names a with
  | .ok () a =>
    let (program, _, t) := a.finish t
    .ok (program, t)
  | .error e _ => .error e

/-! ## The host -/

/-- The line that a call of the printing routine writes. -/
def printedLine (arguments : List Value) : Except NativeError String :=
  (arguments.mapM NativeArgument.text).map " ".intercalate

/-- The printing routine: it complains about arguments that have no text. -/
def print (arguments : List Value) : Routine :=
  match printedLine arguments with
  | .ok _ => .idle
  | .error e => .fail e

/-- A host whose one routine prints. -/
def host (instructionLimit : Option Nat) : Host :=
  { limits := { instructionLimit }, routine := fun _ arguments => print arguments }

/-- A world with the printing routine, and the symbol of the routine. -/
def world : SymbolId × World :=
  let (routine, w) := World.initial.newNative
  let (id, symbols) := w.symbols.defineNative "t_print" routine
  (id, { w with symbols })

/-- The text that the calls on record have printed. -/
def printed (w : World) : String :=
  String.join (w.calls.toList.map fun call =>
    match printedLine call.arguments with
    | .ok line => line ++ "\n"
    | .error _ => "")

/-! ## The command line -/

/-- What a command writes and how it exits. -/
structure Transcript where
  exitCode : Nat
  out : String
  err : String
deriving DecidableEq, Repr

/-- How to use the command. -/
def usage : String :=
  String.join
    [ "MACRO VM - Preemptible bytecode interpreter for editor macros\n"
    , "\n"
    , "Usage:\n"
    , "  macro_vm                  Run the demo macro\n"
    , "  macro_vm --bc             Print the demo's bytecode before running it\n"
    , "  macro_vm --budget <n>     Preempt every <n> instructions\n"
    , "  macro_vm --no-preempt     Run to completion in one slice\n"
    , "  macro_vm --help, -h       Show this help\n"
    , "\n"
    , "Set RUST_LOG=macro_vm=debug (or trace) to follow execution.\n" ]

/-- A count as it is written on the command line: an optional plus sign, then decimal digits, less
than 2 ^ 64. -/
def readCount? (text : String) : Option Nat :=
  let digits := match text.toList with
    | '+' :: rest => rest
    | all => all
  if digits.isEmpty || !digits.all Char.isDigit then none
  else
    let n := Numeral.value digits
    if n < 18446744073709551616 then some n else none

/-- What the command is asked to do. -/
inductive Request where
  | help
  | badBudget
  /-- Run the macro, cut after so many instructions; the flag asks for the listing first. -/
  | run (listing : Bool) (instructionLimit : Option Nat)
deriving DecidableEq, Repr

/-- The instruction count that the arguments ask for; no answer if it is not a positive number. -/
def budget? : List String → Option Nat
  | [] => ({} : Limits).instructionLimit
  | "--budget" :: rest =>
    match rest.head?.bind readCount? with
    | some n => if 0 < n then some n else none
    | none => none
  | _ :: rest => budget? rest

/-- What some arguments ask for. -/
def Request.ofArguments (arguments : List String) : Request :=
  if arguments.contains "--help" || arguments.contains "-h" then .help
  else
    match budget? arguments with
    | none => .badBudget
    | some n =>
      .run (arguments.contains "--bc") (if arguments.contains "--no-preempt" then none else some n)

/-- The rule of a heading. -/
def headingRule : String :=
  "════════════════════════════════════════\n"

/-- The listing of the macro under a heading. -/
def heading (t : SymbolTable) (p : Program) : String :=
  headingRule ++ " demo\n " ++ toString p.size ++ " slots, " ++ toString p.locals.length ++
    " locals\n" ++ headingRule ++ Listing.render t p ++ "\n"

/-- A bound that no run of the macro reaches. -/
def bound : Nat := 4294967296

/-- Runs the macro after `before` has been written. -/
def runTranscript (instructionLimit : Option Nat) (w : World) (p : ProgramRef) (before : String) :
    Transcript :=
  match (host instructionLimit).drive bound bound w p [] none with
  | some (.done value, slices, w) =>
    { exitCode := 0, err := ""
      out := before ++ printed w ++ "result: " ++ value.display ++ "\nfinished in " ++
        toString slices ++ " slice(s)\n" }
  | some (.failed e, _, w) =>
    { exitCode := 1, out := before ++ printed w
      err := "Runtime error: " ++ e.message w.store ++ "\n" }
  | some (.preempted _ _, _, w) => { exitCode := 1, out := before ++ printed w, err := "" }
  | none => { exitCode := 1, out := before, err := "" }

/-- What the command does for some arguments. -/
def transcript (arguments : List String) : Transcript :=
  match Request.ofArguments arguments with
  | .help => { exitCode := 0, out := usage, err := "" }
  | .badBudget =>
    { exitCode := 1, out := "", err := "Error: --budget expects a positive instruction count\n" }
  | .run listing instructionLimit =>
    let (print, w) := world
    match build w.symbols print 100 with
    | .error e => { exitCode := 1, out := "", err := "Assembly error: " ++ e.message ++ "\n" }
    | .ok (program, symbols) =>
      let (p, w) := { w with symbols }.share program
      let before := if listing then heading symbols program else ""
      runTranscript instructionLimit w p before

end MacroMachine.Demo
