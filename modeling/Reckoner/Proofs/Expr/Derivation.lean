import Reckoner.Expr.Grammar
import Reckoner.Expr.Parser

/-!
Derivations of the expression grammar. A phrase of one nonterminal is a phrase of every looser one;
its tokens are operands, parentheses and operators, and the operators are those of its tree.
-/
namespace Reckoner

/-- Outside parentheses, a phrase has binary operators of at least this rank only. -/
def Nonterminal.rank : Nonterminal → Nat
  | chain level => level.rank
  | unary => Level.unaryRank
  | primary => Level.unaryRank + 1

theorem Level.rank_operand (level : Level) : level.operand.rank = level.rank + 1 := by
  cases level <;> rfl

theorem Level.rank_lt_unaryRank (level : Level) : level.rank < Level.unaryRank := by
  cases level <;> decide

theorem Level.rank_inj {left right : Level} (h : left.rank = right.rank) : left = right := by
  cases left <;> cases right <;> first | rfl | cases h

theorem Expr.BindsAtLeast.mono {rank rank' : Nat} {e : Expr} (h : e.BindsAtLeast rank')
    (hr : rank ≤ rank') : e.BindsAtLeast rank := by
  cases e with
  | binary left operator right =>
    obtain ⟨level, hk, hle⟩ := h
    exact ⟨level, hk, Nat.le_trans hr hle⟩
  | literal | grouping | unary => trivial

def Kind.isOperator (kind : Kind) : Bool :=
  kind.isUnary || kind.level?.isSome

theorem Kind.isUnary_iff {kind : Kind} : kind.isUnary ↔ kind = .bang ∨ kind = .minus := by
  cases kind <;> simp [isUnary]

theorem Kind.isOperator_of_mem_operators {kind : Kind} {level : Level}
    (h : kind ∈ level.operators) : kind.isOperator := by
  simp [isOperator, (Level.mem_operators_iff _ _).1 h]

theorem Kind.isOperator_of_unary {kind : Kind} (h : kind = .bang ∨ kind = .minus) :
    kind.isOperator := by
  simp [isOperator, isUnary_iff.2 h]

theorem Token.operand?_eq_some_iff {t : Token} {value : Value} :
    t.operand? = some value ↔
      t.kind = .keyword .true_ ∧ value = .bool true ∨
      t.kind = .keyword .false_ ∧ value = .bool false ∨
      t.kind = .keyword .nil_ ∧ value = .nil ∨
      (t.kind = .number ∨ t.kind = .string) ∧ t.literal = some value := by
  unfold Token.operand?
  split
  next hk => simp [hk, eq_comm]
  next hk => simp [hk, eq_comm]
  next hk => simp [hk, eq_comm]
  next hk => simp [hk]
  next hk => simp [hk]
  next => simp_all

namespace Derives

variable {tokens : List Token} {e : Expr} {n : Nonterminal} {level : Level}

theorem ofOperand? {t : Token} {value : Value} (h : t.operand? = some value) :
    Derives .primary [t] (.literal value) := by
  rcases Token.operand?_eq_some_iff.1 h with ⟨hk, rfl⟩ | ⟨hk, rfl⟩ | ⟨hk, rfl⟩ | ⟨hk, hl⟩
  · exact .true_ hk
  · exact .false_ hk
  · exact .nil_ hk
  · exact .literal hk hl

theorem toUnary (h : Derives n tokens e) (hr : Level.unaryRank ≤ n.rank) :
    Derives .unary tokens e := by
  cases n with
  | chain level => exact absurd hr (Nat.not_le.2 level.rank_lt_unaryRank)
  | unary => exact h
  | primary => exact .primary h

private theorem toChain_of_operand (h : Derives n tokens e) (hr : level.rank ≤ n.rank)
    (operand : level.rank < n.rank → Derives level.operand tokens e) :
    Derives (.chain level) tokens e := by
  rcases Nat.lt_or_eq_of_le hr with hlt | heq
  · exact .operand (operand hlt)
  · cases n with
    | chain inner => exact Level.rank_inj heq ▸ h
    | unary => exact absurd heq (Nat.ne_of_lt level.rank_lt_unaryRank)
    | primary => exact absurd heq (Nat.ne_of_lt (Nat.lt_succ_of_lt level.rank_lt_unaryRank))

theorem toChain (h : Derives n tokens e) (hr : level.rank ≤ n.rank) :
    Derives (.chain level) tokens e := by
  have factor (hr : Level.factor.rank ≤ n.rank) : Derives (.chain .factor) tokens e :=
    toChain_of_operand h hr fun hlt => h.toUnary hlt
  have term (hr : Level.term.rank ≤ n.rank) : Derives (.chain .term) tokens e :=
    toChain_of_operand h hr fun hlt => factor hlt
  have comparison (hr : Level.comparison.rank ≤ n.rank) : Derives (.chain .comparison) tokens e :=
    toChain_of_operand h hr fun hlt => term hlt
  cases level with
  | equality => exact toChain_of_operand h hr fun hlt => comparison hlt
  | comparison => exact comparison hr
  | term => exact term hr
  | factor => exact factor hr

theorem toOperand (h : Derives n tokens e) (hr : level.rank < n.rank) :
    Derives level.operand tokens e := by
  cases level with
  | equality => exact h.toChain hr
  | comparison => exact h.toChain hr
  | term => exact h.toChain hr
  | factor => exact h.toUnary hr

theorem mem_tokens (h : Derives n tokens e) : ∀ t ∈ tokens,
    t.kind.isOperator ∨ t.kind = .leftParen ∨ t.kind = .rightParen ∨ t.operand?.isSome := by
  induction h with
  | operand _ ih | primary _ ih => exact ih
  | binary _ hk _ ihl ihr =>
    intro t ht
    rcases List.mem_append.1 ht with ht | ht
    · exact ihl t ht
    · rcases List.mem_cons.1 ht with rfl | ht
      · exact .inl (Kind.isOperator_of_mem_operators hk)
      · exact ihr t ht
  | unary hk _ ih =>
    intro t ht
    rcases List.mem_cons.1 ht with rfl | ht
    · exact .inl (Kind.isOperator_of_unary hk)
    · exact ih t ht
  | true_ hk | false_ hk | nil_ hk =>
    intro t ht
    rw [List.mem_singleton.1 ht]
    simp [Token.operand?, hk]
  | literal hk hl =>
    intro t ht
    rw [List.mem_singleton.1 ht]
    rcases hk with hk | hk <;> simp [Token.operand?, hk, hl]
  | group ho hc _ ih =>
    intro t ht
    simp only [List.cons_append, List.mem_cons, List.mem_append, List.not_mem_nil,
      or_false] at ht
    rcases ht with rfl | ht | rfl
    · simp [ho]
    · exact ih t ht
    · simp [hc]

theorem kind_ne_eof (h : Derives n tokens e) : ∀ t ∈ tokens, t.kind ≠ .eof := by
  intro t ht he
  have := h.mem_tokens t ht
  simp [he, Kind.isOperator, Kind.isUnary, Kind.level?, Token.operand?] at this

theorem operators_eq (h : Derives n tokens e) :
    e.operators = tokens.filter (·.kind.isOperator) := by
  induction h with
  | operand _ ih | primary _ ih => exact ih
  | binary _ hk _ ihl ihr =>
    simp [Expr.operators, ihl, ihr, Kind.isOperator_of_mem_operators hk]
  | unary hk _ ih =>
    simp [Expr.operators, ih, Kind.isOperator_of_unary hk]
  | true_ hk | false_ hk | nil_ hk =>
    simp [Expr.operators, hk, Kind.isOperator, Kind.isUnary, Kind.level?]
  | literal hk _ =>
    rcases hk with hk | hk <;>
      simp [Expr.operators, hk, Kind.isOperator, Kind.isUnary, Kind.level?]
  | group ho hc _ ih =>
    simp [Expr.operators, ih, ho, hc, Kind.isOperator, Kind.isUnary, Kind.level?]

end Derives
end Reckoner
