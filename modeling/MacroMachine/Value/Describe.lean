import MacroMachine.Store
import MacroMachine.Text.Quoted

/-!
# Values in full

Messages about a damaged frame show the value that they found in full, arrays with all their
entries.  An array shows its entries to the depth of the store: nesting cannot go deeper than there
are containers unless a container reaches itself, and such a container has no finite text.
-/

namespace MacroMachine

/-- The full text of a value, given the text of an array's entries. -/
def Value.describeWith (entriesText : ArrayRef → String) : Value → String
  | .unset => "Unset"
  | .int n => "Int(" ++ Numeral.render n ++ ")"
  | .text t => "String(" ++ Quoted.quote t ++ ")"
  | .array ref => "Array(" ++ entriesText ref ++ ")"
  | .iterator it => "ArrayIter(" ++ Quoted.quote? it.cursor ++ ")"
  | .native _ => "NativeSubroutine"
  | .program p => "Program(" ++ toString p.program.size ++ " slots)"
  | .address none => "InstructionAddress(None)"
  | .address (some a) => "InstructionAddress(Some(CodeAddress(PTR+" ++ toString a.index ++ ")))"
  | .frame none => "FrameSlot(None)"
  | .frame (some fp) => "FrameSlot(Some(" ++ toString fp ++ "))"

namespace Store

/-- The entries of a container in braces, down to `depth` levels. -/
def describeEntriesTo (s : Store) : (depth : Nat) → ArrayRef → String
  | 0, _ => "…"
  | depth + 1, ref =>
    let shown := (s.entries ref).toList.map fun (key, value) =>
      Quoted.quote key ++ ": " ++ value.describeWith (s.describeEntriesTo depth)
    "\x7b" ++ ", ".intercalate shown ++ "\x7d"

/-- The entries of a container in braces. -/
def describeEntries (s : Store) (ref : ArrayRef) : String :=
  s.describeEntriesTo (s.containers.size + 1) ref

/-- The full text of a value. -/
def describe (s : Store) (v : Value) : String :=
  v.describeWith s.describeEntries

end Store

end MacroMachine
