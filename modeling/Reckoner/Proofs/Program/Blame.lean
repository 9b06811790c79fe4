import Mathlib.Data.List.Nodup
import Reckoner.Proofs.Program.Stages
import Reckoner.Proofs.Token.Covering

/-!
Blame. The evaluation of a program fails at an operator of its text that needs numbers. What stands
in front of the operator says which fault it is: where an operand is to come, a minus sign has one
operand, and anywhere else an operator has two.
-/
namespace Reckoner

def Kind.wantsOperand (kind : Kind) : Bool :=
  kind == .leftParen || kind.isOperator

/-- An operand comes next, behind these tokens or first of all. -/
def expectsOperand (before : List Token) : Bool :=
  before.getLast?.all fun t => t.kind.wantsOperand

def Kind.numeric : List Kind :=
  [.minus, .plus, .star, .slash, .greater, .greaterEqual, .less, .lessEqual]

/-- The fault is one that its operator may be blamed for behind these tokens. -/
def RuntimeError.FitsBehind (error : RuntimeError) (before : List Token) : Prop :=
  error.token.kind ∈ Kind.numeric ∧ error.fault =
    if error.token.kind = .minus ∧ expectsOperand before then .operandNotNumber
    else .operandsNotNumbers

theorem RuntimeError.FitsBehind.message_eq {error : RuntimeError} {before : List Token}
    (h : error.FitsBehind before) :
    error.message =
      if error.token.kind = .minus ∧ expectsOperand before then "Operand must be a number."
      else "Operands must be numbers." := by
  rw [message, h.2]
  by_cases hprefix : error.token.kind = .minus ∧ expectsOperand before
  · rw [if_pos hprefix, if_pos hprefix]
  · rw [if_neg hprefix, if_neg hprefix]

theorem Kind.wantsOperand_of_isOperator {kind : Kind} (h : kind.isOperator) :
    kind.wantsOperand := by
  simp [wantsOperand, h]

theorem eq_of_nodup_middle {α : Type} {before before' after after' : List α} {a : α}
    (h : (before ++ a :: after).Nodup) (heq : before ++ a :: after = before' ++ a :: after') :
    before = before' := by
  have hnotMem := (List.nodup_cons.1 (List.nodup_middle.1 h)).1
  rw [List.mem_append, not_or] at hnotMem
  exact ((List.append_cons_inj_of_notMem hnotMem.1 hnotMem.2).1 heq).1

theorem bind_eq_error_iff {ε α β : Type} {x : Except ε α} {f : α → Except ε β} {e : ε} :
    (x >>= f) = .error e ↔ x = .error e ∨ ∃ a, x = .ok a ∧ f a = .error e := by
  cases x <;> simp [Bind.bind, Except.bind]

namespace Value

variable {operator : Token} {error : RuntimeError} {a b value : Value}

theorem applyUnary_eq_error (hk : operator.kind = .bang ∨ operator.kind = .minus)
    (h : applyUnary operator value = .error error) :
    operator.kind = .minus ∧ error = ⟨.operandNotNumber, operator⟩ := by
  unfold applyUnary at h
  rcases hk with hk | hk
  · rw [hk] at h
    cases h
  · refine ⟨hk, ?_⟩
    rw [hk] at h
    cases value <;> cases h <;> rfl

theorem applyBinary_eq_error (hk : operator.kind.level?.isSome)
    (h : applyBinary operator a b = .error error) :
    operator.kind ∈ Kind.numeric ∧ error = ⟨.operandsNotNumbers, operator⟩ := by
  unfold applyBinary at h
  cases hkind : operator.kind <;> rw [hkind] at h hk <;> cases hk
  case plus => exact ⟨by decide, plus_eq_error h⟩
  case bangEqual | equalEqual => cases h
  all_goals exact ⟨by decide, numeric_eq_error h⟩

end Value

theorem expectsOperand_concat (before : List Token) (t : Token) :
    expectsOperand (before ++ [t]) = t.kind.wantsOperand := by
  simp [expectsOperand]

namespace Derives

variable {n : Nonterminal} {tokens : List Token} {e : Expr}

theorem expectsOperand_eq_false (h : Derives n tokens e) (before : List Token) :
    expectsOperand (before ++ tokens) = false := by
  induction h generalizing before with
  | operand _ ih | primary _ ih => exact ih before
  | @binary level left right a b operator _ _ _ _ ih =>
    rw [List.append_cons, ← List.append_assoc]
    exact ih _
  | @unary tokens e operator _ _ ih =>
    rw [List.append_cons]
    exact ih _
  | true_ hk | false_ hk | nil_ hk =>
    rw [expectsOperand_concat, hk]
    rfl
  | literal hk =>
    rw [expectsOperand_concat]
    rcases hk with hk | hk <;> rw [hk] <;> rfl
  | group _ hc =>
    rw [← List.append_assoc, expectsOperand_concat, hc]
    rfl

/-- Evaluation fails at an operator of the phrase. The induction is over the phrase, with the tokens
in front of it in `front`; behind them an operand has to be expected. -/
theorem exists_blamed (h : Derives n tokens e) {error : RuntimeError} (he : e.eval = .error error)
    {front : List Token} (hfront : expectsOperand front) :
    ∃ before after, tokens = before ++ error.token :: after ∧
      error.FitsBehind (front ++ before) := by
  induction h generalizing front with
  | operand _ ih | primary _ ih => exact ih he hfront
  | @binary level left right a b operator hleft hk _ ihl ihr =>
    rcases bind_eq_error_iff.1 he with he | ⟨v, _, he⟩
    · obtain ⟨before, after, rfl, hfits⟩ := ihl he hfront
      exact ⟨before, after ++ operator :: right, by simp, hfits⟩
    rcases bind_eq_error_iff.1 he with he | ⟨w, _, he⟩
    · have hwants : expectsOperand (front ++ left ++ [operator]) := by
        rw [expectsOperand_concat]
        exact Kind.wantsOperand_of_isOperator (Kind.isOperator_of_mem_operators hk)
      obtain ⟨before, after, rfl, hfits⟩ := ihr he hwants
      exact ⟨left ++ operator :: before, after, by simp, by simpa using hfits⟩
    · have hlevel : operator.kind.level?.isSome := by
        rw [(level.mem_operators_iff _).1 hk]
        rfl
      obtain ⟨hnumeric, rfl⟩ := Value.applyBinary_eq_error hlevel he
      refine ⟨left, right, rfl, hnumeric, ?_⟩
      -- Behind the left phrase no operand is expected, so a minus sign is no exception here.
      simp [hleft.expectsOperand_eq_false front]
  | @unary tokens e operator hk _ ih =>
    rcases bind_eq_error_iff.1 he with he | ⟨v, _, he⟩
    · have hwants : expectsOperand (front ++ [operator]) := by
        rw [expectsOperand_concat]
        exact Kind.wantsOperand_of_isOperator (Kind.isOperator_of_unary hk)
      obtain ⟨before, after, rfl, hfits⟩ := ih he hwants
      exact ⟨operator :: before, after, rfl, by simpa using hfits⟩
    · obtain ⟨hminus, rfl⟩ := Value.applyUnary_eq_error hk he
      refine ⟨[], tokens, rfl, ?_, ?_⟩
      · simp [hminus, Kind.numeric]
      · simp [hminus, hfront]
  | true_ | false_ | nil_ | literal => cases he
  | @group tokens e opening closing ho _ _ ih =>
    have hwants : expectsOperand (front ++ [opening]) := by
      rw [expectsOperand_concat, ho]
      rfl
    obtain ⟨before, after, rfl, hfits⟩ := ih he hwants
    exact ⟨opening :: before, after ++ [closing], by simp, by simpa using hfits⟩

end Derives

namespace Program

variable {source : String} {error : RuntimeError}

theorem exists_blamed (h : run source = .error (.runtime error)) :
    ∃ before after, (scan source).tokens = before ++ error.token :: after ∧
      error.FitsBehind before := by
  obtain ⟨tree, hparse, heval⟩ := run_eq_runtime_iff.1 h
  have hd := parse_scan_eq_ok_iff.1 (parse_eq_ok_iff.1 hparse).2
  have hfirst : expectsOperand [] := rfl
  obtain ⟨before, after, hscanned, hfits⟩ := hd.exists_blamed heval hfirst
  have htokens := scan_tokens source
  rw [hscanned, List.append_assoc, List.cons_append] at htokens
  exact ⟨before, _, htokens, hfits⟩

/-- A runtime error of a program blames a token of its text, an operator that needs numbers. The
message is the one for a single operand if the operator is a minus sign where an operand is to come,
and the one for two operands otherwise; no operator is ever unknown. -/
theorem blame_of_run (h : run source = .error (.runtime error)) :
    error.token ∈ (scan source).tokens ∧
      error.token.kind ∈ Kind.numeric ∧
      (∀ before after, (scan source).tokens = before ++ error.token :: after →
        error.message =
          if error.token.kind = .minus ∧ expectsOperand before then "Operand must be a number."
          else "Operands must be numbers.") ∧
      error.fault ≠ .unknownUnary ∧ error.fault ≠ .unknownBinary := by
  obtain ⟨before, after, htokens, hfits⟩ := exists_blamed h
  refine ⟨by simp [htokens], hfits.1, fun before' after' htokens' => ?_, ?_, ?_⟩
  · have hnodup := scan_tokens_nodup source
    rw [htokens] at hnodup htokens'
    rw [← eq_of_nodup_middle hnodup htokens']
    exact hfits.message_eq
  · rw [hfits.2]
    split <;> simp
  · rw [hfits.2]
    split <;> simp

theorem blame_of_run_of_signs :
    run "1 - -\"a\"" = .error (.runtime ⟨.operandNotNumber, ⟨.minus, "-", none, 1, ⟨4, 5⟩⟩⟩) ∧
      ∃ before after, (scan "1 - -\"a\"").tokens =
          before ++ ⟨.minus, "-", none, 1, ⟨4, 5⟩⟩ :: after ∧
        expectsOperand before ∧
        RuntimeError.message ⟨.operandNotNumber, ⟨.minus, "-", none, 1, ⟨4, 5⟩⟩⟩ =
          "Operand must be a number." := by
  have h : run "1 - -\"a\"" =
      .error (.runtime ⟨.operandNotNumber, ⟨.minus, "-", none, 1, ⟨4, 5⟩⟩⟩) := by
    decide +kernel
  obtain ⟨_, _, hmessage, _⟩ := blame_of_run h
  have htokens : (scan "1 - -\"a\"").tokens =
      [⟨.number, "1", some (.number (Number.ofDecimal ⟨1, 0⟩)), 1, ⟨0, 1⟩⟩,
        ⟨.minus, "-", none, 1, ⟨2, 3⟩⟩] ++ ⟨.minus, "-", none, 1, ⟨4, 5⟩⟩ ::
          [⟨.string, "\"a\"", some (.str "a"), 1, ⟨5, 8⟩⟩, ⟨.eof, "", none, 1, ⟨8, 8⟩⟩] := by
    decide +kernel
  exact ⟨h, _, _, htokens, by decide, hmessage _ _ htokens⟩

end Program
end Reckoner
