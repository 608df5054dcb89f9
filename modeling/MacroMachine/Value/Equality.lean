import MacroMachine.Store

/-!
# Equality of values

Two values are equal if they are of one kind and hold the same thing.  Arrays are equal if they are
one container or hold equal values under the same keys; iterators, routines, programs and addresses
are equal only if they are the same one.

Comparing two arrays entry by entry descends through pairs of containers.  A descent that meets a
pair again would go on for ever, so a comparison that ends at all ends within as many levels as
there are pairs; `equal?` allows that many and has no answer for a comparison that would not end.
-/

namespace MacroMachine.Store

/-- Compares two rows of entries with `same` for their values, up to the first difference. -/
def rowsEqual? (same : Value → Value → Option Bool) :
    List (String × Value) → List (String × Value) → Option Bool
  | (j, u) :: left, (k, v) :: right =>
    if j = k then
      match same u v with
      | some true => rowsEqual? same left right
      | answer => answer
    else
      some false
  | [], [] => some true
  | _, _ => some false

/-- Whether two values are equal, arrays compared through at most `depth` levels. -/
def equalTo? (s : Store) : (depth : Nat) → Value → Value → Option Bool
  | depth, .array a, .array b =>
    if a = b then some true
    else match depth with
      | 0 => none
      | depth + 1 =>
        let left := s.entries a
        let right := s.entries b
        if left.size = right.size then rowsEqual? (s.equalTo? depth) left.toList right.toList
        else some false
  | _, .unset, .unset => some true
  | _, .int m, .int n => some (m == n)
  | _, .text s, .text t => some (s == t)
  | _, .iterator i, .iterator j => some (i == j)
  | _, .native m, .native n => some (m == n)
  | _, .program p, .program q => some (p.same q)
  | _, .address none, .address none => some true
  | _, .address (some a), .address (some b) => some (a.same b)
  | _, .frame f, .frame g => some (f == g)
  | _, _, _ => some false

/-- Whether two values are equal; no answer if comparing them would not end. -/
def equal? (s : Store) (v w : Value) : Option Bool :=
  s.equalTo? (s.containers.size * s.containers.size + 1) v w

end MacroMachine.Store
