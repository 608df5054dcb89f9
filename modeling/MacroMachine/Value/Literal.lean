import MacroMachine.World

/-!
# Literals

A literal describes a value that does not exist yet.  Making the value makes what it consists of:
new containers for arrays, and new identities for programs and routines.
-/

namespace MacroMachine

/-- A description of a value. -/
inductive Literal where
  | unset
  | int (n : Int32)
  | text (s : String)
  /-- A new array with no entries. -/
  | emptyArray
  /-- An array with one more entry, in place of an earlier one under the same key. -/
  | withEntry (array : Literal) (key : String) (value : Literal)
  /-- An iterator at the first key of an array. -/
  | iterator (array : Literal)
  /-- A new routine that does nothing. -/
  | native
  /-- A new program of `n` additions. -/
  | program (n : Nat)
  /-- An address in a new program without slots, or none. -/
  | address (index : Option Nat)
  | frame (fp : Option Nat)
  /-- A value that exists already. -/
  | existing (v : Value)
deriving DecidableEq, Repr, Inhabited

namespace Literal

/-- An array literal with the given entries, later ones in place of earlier ones. -/
def array (entries : List (String × Literal)) : Literal :=
  entries.foldl (fun l (key, value) => .withEntry l key value) .emptyArray

/-- Makes the value that a literal describes. -/
def make : Literal → World → Value × World
  | .unset, w => (.unset, w)
  | .int n, w => (.int n, w)
  | .text s, w => (.text s, w)
  | .emptyArray, w =>
    let (ref, w) := w.alloc .empty
    (.array ref, w)
  | .withEntry array key value, w =>
    let (container, w) := array.make w
    let (v, w) := value.make w
    match container with
    | .array ref => (container, { w with store := w.store.insert ref key v })
    | _ => (container, w)
  | .iterator array, w =>
    let (container, w) := array.make w
    match container with
    | .array ref => (.iterator (w.store.iterate ref), w)
    | _ => (.unset, w)
  | .native, w =>
    let (id, w) := w.newNative
    (.native id, w)
  | .program n, w =>
    let (p, w) := w.share { code := Array.replicate n (.op .add), locals := [] }
    (.program p, w)
  | .address none, w => (.address none, w)
  | .address (some index), w =>
    let (p, w) := w.share { code := #[], locals := [] }
    (.address (some { program := p, index := index }), w)
  | .frame fp, w => (.frame fp, w)
  | .existing v, w => (v, w)

/-- Makes the values that some literals describe, in order. -/
def makeAll : List Literal → World → List Value × World
  | [], w => ([], w)
  | l :: rest, w =>
    let (v, w) := l.make w
    let (vs, w) := makeAll rest w
    (v :: vs, w)

end Literal

end MacroMachine
