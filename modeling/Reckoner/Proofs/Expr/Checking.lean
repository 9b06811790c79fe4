import Mathlib.Control.Monad.Basic
import Reckoner.Expr.Eval

/-!
Types decide failure. What an operator makes of its operands is settled by their types, as far as
the type of the result or the fault goes. So checking a tree foretells its evaluation, and the
values of literals have no say in whether it fails, or where.
-/
namespace Reckoner

/-- Trees that differ in the values of their literals only, and not in the types of these. -/
inductive Expr.SameTypes : Expr → Expr → Prop where
  | literal {v w : Value} : v.type = w.type → SameTypes (.literal v) (.literal w)
  | grouping {inner inner' : Expr} :
      SameTypes inner inner' → SameTypes (.grouping inner) (.grouping inner')
  | unary {operator : Token} {operand operand' : Expr} :
      SameTypes operand operand' → SameTypes (.unary operator operand) (.unary operator operand')
  | binary {left left' right right' : Expr} {operator : Token} :
      SameTypes left left' → SameTypes right right' →
      SameTypes (.binary left operator right) (.binary left' operator right')

theorem map_bind_of_map {ε α β γ δ : Type} {x : Except ε α} {y : Except ε β} {p : α → β}
    {f : α → Except ε γ} {g : β → Except ε δ} {q : γ → δ} (hx : x.map p = y)
    (hf : ∀ a, (f a).map q = g (p a)) : (x >>= f).map q = y >>= g := by
  subst hx
  cases x with
  | error e => rfl
  | ok a => exact hf a

namespace Value

theorem map_type_applyUnary (operator : Token) (value : Value) :
    (applyUnary operator value).map type = ValueType.checkUnary operator value.type := by
  unfold applyUnary ValueType.checkUnary
  cases operator.kind <;> cases value <;> rfl

theorem map_type_numeric (operator : Token) {f : Float → Float → Value} {result : ValueType}
    (hf : ∀ x y, (f x y).type = result) (a b : Value) :
    (numeric operator f a b).map type =
      if a.type = .number ∧ b.type = .number then .ok result
      else .error ⟨.operandsNotNumbers, operator⟩ := by
  cases a with
  | number x =>
    cases b with
    | number y => exact congrArg Except.ok (hf x y)
    | _ => rfl
  | _ => rfl

theorem map_type_plus (operator : Token) (a b : Value) :
    (plus operator a b).map type =
      if a.type = b.type ∧ (a.type = .number ∨ a.type = .str) then .ok a.type
      else .error ⟨.operandsNotNumbers, operator⟩ := by
  cases a <;> cases b <;> rfl

theorem map_type_applyBinary (operator : Token) (a b : Value) :
    (applyBinary operator a b).map type = ValueType.checkBinary operator a.type b.type := by
  unfold applyBinary ValueType.checkBinary
  cases operator.kind with
  | plus => exact map_type_plus operator a b
  | minus | slash | star | greater | greaterEqual | less | lessEqual =>
    refine map_type_numeric operator (fun _ _ => ?_) a b
    rfl
  | _ => rfl

end Value

namespace Expr

theorem map_type_eval (e : Expr) : e.eval.map Value.type = e.check := by
  induction e with
  | literal value => rfl
  | grouping inner ih => exact ih
  | unary operator operand ih => exact map_bind_of_map ih (Value.map_type_applyUnary operator)
  | binary left operator right ihl ihr =>
    refine map_bind_of_map ihl fun a => ?_
    exact map_bind_of_map ihr (Value.map_type_applyBinary operator a)

theorem SameTypes.check_eq {e e' : Expr} (h : e.SameTypes e') : e.check = e'.check := by
  induction h with
  | literal h => exact congrArg Except.ok h
  | grouping _ ih => exact ih
  | unary _ ih => rw [check, check, ih]
  | binary _ _ ihl ihr => rw [check, check, ihl, ihr]

/-- Evaluation gives a value of a type exactly if the tree is checked to have that type, and fails
exactly as it is checked to fail: with the same fault of the same operator. So it comes to the same
for all values of the literals, as long as their types are kept. -/
theorem eval_iff_check (e : Expr) :
    (∀ type, (∃ value, e.eval = .ok value ∧ value.type = type) ↔ e.check = .ok type) ∧
    (∀ error, e.eval = .error error ↔ e.check = .error error) ∧
    (∀ operator,
      RuntimeError.message ⟨.operandNotNumber, operator⟩ = "Operand must be a number." ∧
      RuntimeError.message ⟨.operandsNotNumbers, operator⟩ = "Operands must be numbers." ∧
      RuntimeError.message ⟨.unknownUnary, operator⟩ =
        "Unknown unary operator '" ++ operator.lexeme ++ "'." ∧
      RuntimeError.message ⟨.unknownBinary, operator⟩ =
        "Unknown binary operator '" ++ operator.lexeme ++ "'.") ∧
    (∀ e', e.SameTypes e' → e.eval.map Value.type = e'.eval.map Value.type) := by
  refine ⟨fun type => ?_, fun error => ?_, fun operator => ⟨rfl, rfl, rfl, rfl⟩, fun e' h => ?_⟩
  · rw [← e.map_type_eval]
    cases e.eval with
    | ok value => simp [Except.map]
    | error error => simp [Except.map]
  · rw [← e.map_type_eval]
    cases e.eval with
    | ok value => simp [Except.map]
    | error error => simp [Except.map]
  · rw [map_type_eval, map_type_eval, h.check_eq]

end Expr
end Reckoner
