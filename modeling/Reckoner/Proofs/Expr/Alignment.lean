import Mathlib.Data.List.Forall2
import Reckoner.Expr
import Reckoner.Expr.Eval
import Reckoner.Proofs.Expr.Derivation

/-!
Trees in step. Token lists that agree in what the grammar looks at derive trees of one shape, with
operators from the same places; and trees of one shape are written and evaluated alike.
-/
namespace Reckoner

/-- What the grammar looks at: names and places are not part of it. -/
def Token.role (t : Token) : Kind × Option Value :=
  (t.kind, t.operand?)

def SameIndex (tokens tokens' : List Token) (t t' : Token) : Prop :=
  ∃ i : Nat, tokens[i]? = some t ∧ tokens'[i]? = some t'

/-- Trees of one shape and the same literals, with related operators. -/
inductive Expr.Matches (R : Token → Token → Prop) : Expr → Expr → Prop where
  | literal {value : Value} : Matches R (.literal value) (.literal value)
  | grouping {inner inner' : Expr} :
      Matches R inner inner' → Matches R (.grouping inner) (.grouping inner')
  | unary {operator operator' : Token} {operand operand' : Expr} :
      R operator operator' → Matches R operand operand' →
      Matches R (.unary operator operand) (.unary operator' operand')
  | binary {left left' right right' : Expr} {operator operator' : Token} :
      Matches R left left' → R operator operator' → Matches R right right' →
      Matches R (.binary left operator right) (.binary left' operator' right')

inductive SameResult (R : Token → Token → Prop) :
    Except RuntimeError Value → Except RuntimeError Value → Prop where
  | value (value : Value) : SameResult R (.ok value) (.ok value)
  | fault {operator operator' : Token} (fault : RuntimeFault) :
      R operator operator' → SameResult R (.error ⟨fault, operator⟩) (.error ⟨fault, operator'⟩)

variable {R : Token → Token → Prop}

theorem forall₂_append_left {front back tokens' : List Token}
    (h : List.Forall₂ R (front ++ back) tokens') :
    ∃ front' back', List.Forall₂ R front front' ∧ List.Forall₂ R back back' ∧
      tokens' = front' ++ back' := by
  induction front generalizing tokens' with
  | nil => exact ⟨[], tokens', .nil, h, rfl⟩
  | cons t front ih =>
    obtain ⟨t', rest, ht, hrest, rfl⟩ := List.forall₂_cons_left_iff.1 h
    obtain ⟨front', back', hfront, hback, rfl⟩ := ih hrest
    exact ⟨t' :: front', back', .cons ht hfront, hback, rfl⟩

theorem forall₂_singleton_left {t : Token} {tokens' : List Token}
    (h : List.Forall₂ R [t] tokens') : ∃ t', R t t' ∧ tokens' = [t'] := by
  obtain ⟨t', rest, ht, hrest, rfl⟩ := List.forall₂_cons_left_iff.1 h
  rw [List.forall₂_nil_left_iff.1 hrest]
  exact ⟨t', ht, rfl⟩

theorem SameIndex.append {tokens tokens' : List Token} {t t' : Token}
    (h : SameIndex tokens tokens' t t') (more more' : List Token) :
    SameIndex (tokens ++ more) (tokens' ++ more') t t' := by
  obtain ⟨i, ht, ht'⟩ := h
  refine ⟨i, ?_, ?_⟩
  · rw [List.getElem?_append_left (List.getElem?_eq_some_iff.1 ht).1, ht]
  · rw [List.getElem?_append_left (List.getElem?_eq_some_iff.1 ht').1, ht']

theorem forall₂_sameIndex {tokens tokens' : List Token} (h : List.Forall₂ R tokens tokens') :
    List.Forall₂ (fun t t' => R t t' ∧ SameIndex tokens tokens' t t') tokens tokens' :=
  List.forall₂_iff_get.2 ⟨h.length_eq, fun i hi hi' => ⟨h.get hi hi', i, by simp, by simp⟩⟩

namespace Derives

variable (hR : ∀ t t', R t t' → t.role = t'.role)
include hR

private theorem align_operand {t : Token} {value : Value} {tokens' : List Token}
    (hv : t.operand? = some value) (h : List.Forall₂ R [t] tokens') :
    ∃ e', Derives .primary tokens' e' ∧
      (Expr.literal value).Matches (fun t t' => t.kind.isOperator ∧ R t t') e' := by
  obtain ⟨t', ht, rfl⟩ := forall₂_singleton_left h
  have hoperand : t.operand? = t'.operand? := congrArg Prod.snd (hR t t' ht)
  exact ⟨_, .ofOperand? (hoperand.symm.trans hv), .literal⟩

theorem align {n : Nonterminal} {tokens tokens' : List Token} {e : Expr} (h : Derives n tokens e)
    (ht : List.Forall₂ R tokens tokens') :
    ∃ e', Derives n tokens' e' ∧ e.Matches (fun t t' => t.kind.isOperator ∧ R t t') e' := by
  have hkind {t t' : Token} (h : R t t') : t.kind = t'.kind := congrArg Prod.fst (hR t t' h)
  induction h generalizing tokens' with
  | operand _ ih =>
    obtain ⟨e', hd, he⟩ := ih ht
    exact ⟨e', .operand hd, he⟩
  | primary _ ih =>
    obtain ⟨e', hd, he⟩ := ih ht
    exact ⟨e', .primary hd, he⟩
  | @binary level before after left right operator _ hk _ ihl ihr =>
    obtain ⟨before', rest, hbefore, hrest, rfl⟩ := forall₂_append_left ht
    obtain ⟨operator', after', ho, hafter, rfl⟩ := List.forall₂_cons_left_iff.1 hrest
    obtain ⟨left', hdl, hl⟩ := ihl hbefore
    obtain ⟨right', hdr, hr⟩ := ihr hafter
    have hoperator := Kind.isOperator_of_mem_operators hk
    rw [hkind ho] at hk
    exact ⟨_, .binary hdl hk hdr, .binary hl ⟨hoperator, ho⟩ hr⟩
  | @unary tokens e operator hk _ ih =>
    obtain ⟨operator', tokens', ho, htokens, rfl⟩ := List.forall₂_cons_left_iff.1 ht
    obtain ⟨e', hd, he⟩ := ih htokens
    have hoperator := Kind.isOperator_of_unary hk
    rw [hkind ho] at hk
    exact ⟨_, .unary hk hd, .unary ⟨hoperator, ho⟩ he⟩
  | true_ hk | false_ hk | nil_ hk =>
    exact align_operand hR (by rw [Token.operand?, hk]) ht
  | literal hk hl =>
    exact align_operand hR (Token.operand?_eq_some_iff.2 (.inr (.inr (.inr ⟨hk, hl⟩)))) ht
  | @group tokens e opening closing ho hc _ ih =>
    obtain ⟨front', last, hfront, hlast, rfl⟩ := forall₂_append_left ht
    obtain ⟨opening', tokens', hopening, htokens, rfl⟩ := List.forall₂_cons_left_iff.1 hfront
    obtain ⟨closing', hclosing, rfl⟩ := forall₂_singleton_left hlast
    obtain ⟨e', hd, he⟩ := ih htokens
    rw [hkind hopening] at ho
    rw [hkind hclosing] at hc
    exact ⟨_, .group ho hc hd, .grouping he⟩

end Derives

namespace SameResult

theorem bind {x y : Except RuntimeError Value} {f g : Value → Except RuntimeError Value}
    (h : SameResult R x y) (hfg : ∀ value, SameResult R (f value) (g value)) :
    SameResult R (x >>= f) (y >>= g) := by
  cases h with
  | value value => exact hfg value
  | fault fault h => exact .fault fault h

variable {operator operator' : Token} (h : R operator operator')
include h

theorem applyUnary (hk : operator.kind = operator'.kind) (value : Value) :
    SameResult R (Value.applyUnary operator value) (Value.applyUnary operator' value) := by
  unfold Value.applyUnary
  rw [hk]
  split
  next => exact .value _
  next => exact .fault _ h
  next => exact .value _
  next => exact .fault _ h

theorem numeric (f : Float → Float → Value) (a b : Value) :
    SameResult R (Value.numeric operator f a b) (Value.numeric operator' f a b) := by
  unfold Value.numeric
  split
  next => exact .value _
  next => exact .fault _ h

theorem plus (a b : Value) :
    SameResult R (Value.plus operator a b) (Value.plus operator' a b) := by
  unfold Value.plus
  split
  next => exact .value _
  next => exact numeric h _ _ _

theorem applyBinary (hk : operator.kind = operator'.kind) (a b : Value) :
    SameResult R (Value.applyBinary operator a b) (Value.applyBinary operator' a b) := by
  unfold Value.applyBinary
  rw [hk]
  split
  next => exact numeric h _ _ _
  next => exact numeric h _ _ _
  next => exact numeric h _ _ _
  next => exact plus h _ _
  next => exact numeric h _ _ _
  next => exact numeric h _ _ _
  next => exact numeric h _ _ _
  next => exact numeric h _ _ _
  next => exact .value _
  next => exact .value _
  next => exact .fault _ h

end SameResult

namespace Expr.Matches

variable {e e' : Expr}

theorem mono {S : Token → Token → Prop} (h : e.Matches R e') (hRS : ∀ t t', R t t' → S t t') :
    e.Matches S e' := by
  induction h with
  | literal => exact .literal
  | grouping _ ih => exact .grouping ih
  | unary ho _ ih => exact .unary (hRS _ _ ho) ih
  | binary _ ho _ ihl ihr => exact .binary ihl (hRS _ _ ho) ihr

theorem source_eq (h : e.Matches R e') (hR : ∀ t t', R t t' → t.lexeme = t'.lexeme) :
    e.source = e'.source := by
  induction h with
  | literal => rfl
  | grouping _ ih => rw [source, source, ih]
  | unary ho _ ih => rw [source, source, hR _ _ ho, ih]
  | binary _ ho _ ihl ihr => rw [source, source, ihl, hR _ _ ho, ihr]

theorem eval (h : e.Matches R e') (hR : ∀ t t', R t t' → t.kind = t'.kind) :
    SameResult R e.eval e'.eval := by
  induction h with
  | literal => exact .value _
  | grouping _ ih => exact ih
  | unary ho _ ih => exact ih.bind fun value => .applyUnary ho (hR _ _ ho) value
  | binary _ ho _ ihl ihr =>
    exact ihl.bind fun a => ihr.bind fun b => .applyBinary ho (hR _ _ ho) a b

end Expr.Matches

/-! Trees with each operator replaced by its image, for a function that keeps what the grammar and
the evaluation look at. -/

def Expr.mapOperators (f : Token → Token) : Expr → Expr
  | literal value => literal value
  | grouping inner => grouping (inner.mapOperators f)
  | unary operator operand => unary (f operator) (operand.mapOperators f)
  | binary left operator right => binary (left.mapOperators f) (f operator) (right.mapOperators f)

theorem Expr.matches_mapOperators (f : Token → Token) (e : Expr) :
    e.Matches (fun t t' => t' = f t) (e.mapOperators f) := by
  induction e with
  | literal => exact .literal
  | grouping _ ih => exact .grouping ih
  | unary _ _ ih => exact .unary rfl ih
  | binary _ _ _ ihl ihr => exact .binary ihl rfl ihr

theorem Expr.Matches.eq_mapOperators {f : Token → Token} {e e' : Expr} (h : e.Matches R e')
    (hR : ∀ t t', R t t' → t' = f t) : e' = e.mapOperators f := by
  induction h with
  | literal => rfl
  | grouping _ ih => rw [ih, mapOperators]
  | unary ho _ ih => rw [ih, hR _ _ ho, mapOperators]
  | binary _ ho _ ihl ihr => rw [ihl, hR _ _ ho, ihr, mapOperators]

theorem Derives.mapOperators {f : Token → Token} (hf : ∀ t, (f t).role = t.role)
    {n : Nonterminal} {tokens : List Token} {e : Expr} (h : Derives n tokens e) :
    Derives n (tokens.map f) (e.mapOperators f) := by
  have hrole (t t' : Token) (ht : t' = f t) : t.role = t'.role := by rw [ht, hf]
  have htokens : List.Forall₂ (fun t t' => t' = f t) tokens (tokens.map f) := by
    rw [List.forall₂_map_right_iff]
    exact List.forall₂_same.2 fun _ _ => rfl
  obtain ⟨e', hd, he⟩ := h.align hrole htokens
  rwa [he.eq_mapOperators fun _ _ ht => ht.2] at hd

theorem Expr.eval_mapOperators {f : Token → Token} (hf : ∀ t, (f t).kind = t.kind) (e : Expr) :
    (e.mapOperators f).eval =
      e.eval.mapError fun error => { error with token := f error.token } := by
  have hresult := (e.matches_mapOperators f).eval fun t t' ht => by rw [ht, hf]
  generalize (e.mapOperators f).eval = image, e.eval = result at hresult
  cases hresult with
  | value => rfl
  | fault _ h => rw [h]; rfl

end Reckoner
