import Mathlib.Data.List.Basic
import MacroMachine.Proofs.Footprint
import MacroMachine.Proofs.Operands

/-!
# Operators

Operators take one or two operands and leave one value.  There are only a few kinds of them, and an
operator of each kind has an answer for all operands: a value or the fault with which it refuses
them.  The only thing that an operator can do to the arrays is to make a new one.

*Arrays and numbers.*  Four operators mean one thing on two arrays and another on two numbers.  The
right operand decides which; an array together with anything else is refused either way, but for
different reasons.
-/

namespace MacroMachine

theorem Value.exists_of_isArray {v : Value} (h : v.isArray = true) : ∃ ref, v = .array ref := by
  cases v with
  | array ref => exact ⟨ref, rfl⟩
  | _ => cases h

namespace Execution

/-- Operators on one or two values, by the number of their operands. -/
inductive Operator : Execution Outcome → Nat → Prop where
  | unaryInt (f : Int32 → Int32) : Operator (unaryInt f) 1
  | binaryInt (f : Int32 → Int32 → Except Fault Int32) : Operator (binaryInt f) 2
  | arrayOrInt {setOperator : Store → ArrayRef → ArrayRef → ArrayRef × Store}
      (f : Int32 → Int32 → Int32)
      (grows : ∀ store left right, Store.Grows store (setOperator store left right).2) :
      Operator (arrayOrInt setOperator f) 2
  | equality (wanted : Bool) : Operator (equality wanted) 2
  | concatenate : Operator concatenate 2
  | membership : Operator membership 2

/-- An operator makes a value of its operands, or refuses them.  It changes no array that is
there. -/
def Operator.Answers (x : Execution Outcome) (operands : List Value) (store : Store) : Prop :=
  ∃ answer : Except Fault (Value × Store),
    Computes x operands store (answer.map fun result => ([result.1], result.2)) ∧
      ∀ v after, answer = .ok (v, after) → store.Grows after

namespace Operator

variable {x : Execution Outcome} {operands : List Value} {store : Store}

theorem Answers.ok {v : Value} {after : Store} (hgrows : store.Grows after)
    (h : Computes x operands store (.ok ([v], after))) : Answers x operands store := by
  refine ⟨.ok (v, after), h, fun v after heq => ?_⟩
  cases heq
  exact hgrows

theorem Answers.value {v : Value} (h : Computes x operands store (.ok ([v], store))) :
    Answers x operands store :=
  .ok (.refl store) h

theorem Answers.error {why : Fault} (h : Computes x operands store (.error why)) :
    Answers x operands store :=
  ⟨.error why, h, nofun⟩

theorem answers_unaryInt (f : Int32 → Int32) (operand : Value) (store : Store) :
    Answers (Execution.unaryInt f) [operand] store := by
  cases hn : operand.toInt with
  | error why => exact .error (.pop [] (.convert_error hn))
  | ok n => exact .value (.pop [] (.convert hn (.deliver _)))

theorem answers_binaryInt (f : Int32 → Int32 → Except Fault Int32) (left right : Value)
    (store : Store) : Answers (Execution.binaryInt f) [left, right] store := by
  cases hright : right.toInt with
  | error why => exact .error (.pop [left] (.convert_error hright))
  | ok b =>
    cases hleft : left.toInt with
    | error why => exact .error (.pop [left] (.convert hright (.pop [] (.convert_error hleft))))
    | ok a =>
      cases hn : f a b with
      | error why =>
        exact .error (.pop [left] (.convert hright (.pop [] (.convert hleft (.ofExcept_error hn)))))
      | ok n =>
        exact .value (.pop [left] (.convert hright (.pop [] (.convert hleft (.ofExcept hn
          (.deliver _))))))

section ArrayOrInt

variable (setOperator : Store → ArrayRef → ArrayRef → ArrayRef × Store) (f : Int32 → Int32 → Int32)

/-- Two arrays give a new one. -/
theorem computes_arrayOrInt (a b : ArrayRef) (store : Store) :
    Computes (Execution.arrayOrInt setOperator f) [.array a, .array b] store
      (.ok ([.array (setOperator store a b).1], (setOperator store a b).2)) :=
  .peek [.array a] [] (.peek [] [.array b] (.pop [.array a] (.convert rfl (.pop []
    (.convert rfl (.withStore (.deliver _)))))))

/-- Without an array on the right the operands are numbers. -/
theorem computes_arrayOrInt_of_not_array {left right : Value}
    {answer : Except Fault (List Value × Store)} (hright : right.isArray = false)
    (h : Computes (Execution.binaryInt fun a b => .ok (f a b)) [left, right] store answer) :
    Computes (Execution.arrayOrInt setOperator f) [left, right] store answer := by
  refine .peek [left] [] ?_
  rw [hright, if_neg Bool.false_ne_true]
  exact h

theorem computes_arrayOrInt_of_array_right {left : Value} (b : ArrayRef)
    (hleft : left.isArray = false) (store : Store) :
    Computes (Execution.arrayOrInt setOperator f) [left, .array b] store
      (.error (.mismatch .mixedOperands)) := by
  refine .peek [left] [] (.peek [] [.array b] ?_)
  rw [hleft]
  intro w c base _ _
  exact ⟨c.stack, rfl⟩

/-- An array on the left of something else is taken for a number, unless that is none itself. -/
theorem computes_arrayOrInt_of_array_left {right : Value} (a : ArrayRef)
    (hright : right.isArray = false) (store : Store) :
    ∃ why, ∀ setOperator f, Computes (Execution.arrayOrInt setOperator f) [.array a, right] store
      (.error (.mismatch why)) := by
  -- the right operand is converted first, so its own failure comes before that of the array
  cases hb : right.toInt with
  | error why =>
    exact ⟨why, fun setOperator f => computes_arrayOrInt_of_not_array setOperator f hright
      (.pop [.array a] (.convert_error hb))⟩
  | ok b =>
    exact ⟨_, fun setOperator f => computes_arrayOrInt_of_not_array setOperator f hright
      (.pop [.array a] (.convert hb (.pop [] (.convert_error rfl))))⟩

theorem answers_arrayOrInt
    (grows : ∀ store left right, Store.Grows store (setOperator store left right).2)
    (left right : Value) (store : Store) :
    Answers (Execution.arrayOrInt setOperator f) [left, right] store := by
  cases hright : right.isArray with
  | false =>
    obtain ⟨answer, hanswer, hgrows⟩ := answers_binaryInt (fun a b => .ok (f a b)) left right store
    exact ⟨answer, computes_arrayOrInt_of_not_array setOperator f hright hanswer, hgrows⟩
  | true =>
    obtain ⟨b, rfl⟩ := Value.exists_of_isArray hright
    cases hleft : left.isArray with
    | false => exact .error (computes_arrayOrInt_of_array_right setOperator f b hleft store)
    | true =>
      obtain ⟨a, rfl⟩ := Value.exists_of_isArray hleft
      exact .ok (grows store a b) (computes_arrayOrInt setOperator f a b store)

end ArrayOrInt

theorem answers_equality (wanted : Bool) (left right : Value) (store : Store) :
    Answers (Execution.equality wanted) [left, right] store := by
  cases hsame : left.looselyEqual right with
  | error why => exact .error (.pop [left] (.pop [] (.convert_error hsame)))
  | ok same => exact .value (.pop [left] (.pop [] (.convert hsame (.deliver _))))

theorem answers_concatenate (left right : Value) (store : Store) :
    Answers Execution.concatenate [left, right] store := by
  cases hright : right.toText with
  | error why => exact .error (.pop [left] (.convert_error hright))
  | ok b =>
    cases hleft : left.toText with
    | error why => exact .error (.pop [left] (.convert hright (.pop [] (.convert_error hleft))))
    | ok a => exact .value (.pop [left] (.convert hright (.pop [] (.convert hleft (.deliver _)))))

theorem computes_membership {left : Value} {b : ArrayRef} {found : Bool}
    (h : hasKeys store b left = .ok found) :
    Computes Execution.membership [left, .array b] store (.ok ([.ofBool found], store)) := by
  refine .popArray [left] (.pop [] (.world fun w hw => ?_))
  subst hw
  exact .convert h (.deliver _)

theorem answers_membership (left right : Value) (store : Store) :
    Answers Execution.membership [left, right] store := by
  cases hright : right.isArray with
  | false => exact .error (.popArray_error [left] hright)
  | true =>
    obtain ⟨b, rfl⟩ := Value.exists_of_isArray hright
    cases hfound : hasKeys store b left with
    | ok found => exact .value (computes_membership hfound)
    | error why =>
      have hfail : Computes Execution.membership [left, .array b] store
          (.error (.mismatch why)) := by
        refine .popArray [left] (.pop [] (.world fun w hw => ?_))
        subst hw
        exact .convert_error hfound
      exact .error hfail

/-- An operator that finds as many operands as it wants has an answer. -/
theorem answers (h : Operator x operands.length) (store : Store) : Answers x operands store := by
  generalize hn : operands.length = n at h
  cases h with
  | unaryInt f =>
    obtain ⟨operand, rfl⟩ := List.length_eq_one_iff.1 hn
    exact answers_unaryInt f operand store
  | binaryInt f =>
    obtain ⟨left, right, rfl⟩ := List.length_eq_two.1 hn
    exact answers_binaryInt f left right store
  | arrayOrInt f grows =>
    obtain ⟨left, right, rfl⟩ := List.length_eq_two.1 hn
    exact answers_arrayOrInt _ f grows left right store
  | equality wanted =>
    obtain ⟨left, right, rfl⟩ := List.length_eq_two.1 hn
    exact answers_equality wanted left right store
  | concatenate =>
    obtain ⟨left, right, rfl⟩ := List.length_eq_two.1 hn
    exact answers_concatenate left right store
  | membership =>
    obtain ⟨left, right, rfl⟩ := List.length_eq_two.1 hn
    exact answers_membership left right store

end Operator

end Execution

/-! ## Instructions for operators -/

/-- How many operands an operator takes off the stack; none if the opcode is no operator. -/
def Opcode.arity? : Opcode → Option Nat
  | .negate | .increment | .decrement | .not => some 1
  | .add | .subtract | .multiply | .divide | .remainder | .power
  | .greater | .less | .greaterEqual | .lessEqual | .equal | .notEqual
  | .bitAnd | .bitOr | .and | .or | .concat | .contains => some 2
  | _ => none

theorem Opcode.operandCount_of_arity? {op : Opcode} {n : Nat} (h : op.arity? = some n) :
    op.operandCount = 0 := by
  cases op with
  | pushSymbol | assign | call | branch | branchTrue | branchFalse | branchNever | element
  | setElement | beginIteration | iterate | deleteElement | pushArray | prepareUpdate => cases h
  | _ => rfl

theorem Opcode.exists_operator {op : Opcode} {n : Nat} (h : op.arity? = some n) :
    ∃ x, Execution.Operator x n ∧ ∀ invoke, Execution.carryOut invoke op = x := by
  cases op with
  | negate | increment | decrement | not =>
    cases h
    exact ⟨_, .unaryInt _, fun _ => rfl⟩
  | multiply | divide | remainder | power | greater | less | greaterEqual | lessEqual | and | or =>
    cases h
    exact ⟨_, .binaryInt _, fun _ => rfl⟩
  | add | subtract | bitAnd | bitOr =>
    cases h
    exact ⟨_, .arrayOrInt _ fun store _ _ => .alloc store _, fun _ => rfl⟩
  | equal | notEqual =>
    cases h
    exact ⟨_, .equality _, fun _ => rfl⟩
  | concat =>
    cases h
    exact ⟨_, .concatenate, fun _ => rfl⟩
  | contains =>
    cases h
    exact ⟨_, .membership, fun _ => rfl⟩
  | _ => cases h

namespace Evaluates

variable {host : Host} {op : Opcode} {operands : List Value} {store : Store}

/-- Operators have no slots of their own. -/
theorem of_operator {x : Execution Outcome} {answer : Except Fault (List Value × Store)}
    (hop : op.operandCount = 0) (hx : ∀ invoke, Execution.carryOut invoke op = x)
    (h : Computes x operands store answer) : Evaluates host op [] operands store answer := by
  refine .of_computes hop.symm (fun invoke w c _ => ?_) h
  rw [hx]
  simp

/-- An operator that finds as many operands as it takes has an answer. -/
theorem exists_answer (host : Host) (hop : op.arity? = some operands.length) (store : Store) :
    ∃ answer : Except Fault (Value × Store),
      Evaluates host op [] operands store (answer.map fun result => ([result.1], result.2)) ∧
        ∀ v after, answer = .ok (v, after) → store.Grows after := by
  obtain ⟨x, hoperator, hx⟩ := Opcode.exists_operator hop
  obtain ⟨answer, hanswer, hgrows⟩ := hoperator.answers store
  exact ⟨answer, .of_operator (Opcode.operandCount_of_arity? hop) hx hanswer, hgrows⟩

end Evaluates

end MacroMachine
