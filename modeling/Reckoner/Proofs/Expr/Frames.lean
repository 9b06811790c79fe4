import Reckoner.Proofs.Expr.Derivation

/-!
Stacks of open frames. Reducing is determined by the tightest rank it was done at so far, and a
stack stands for the tokens that opened its frames.
-/
namespace Reckoner.Frame

def Waits (rank : Nat) : List Frame → Prop
  | [] => True
  | group :: _ => True
  | unary _ :: _ => False
  | binary _ _ level :: _ => level.rank < rank

theorem Waits.mono {rank tighter : Nat} {stack : List Frame} (h : Waits rank stack)
    (hr : rank ≤ tighter) : Waits tighter stack := by
  match stack, h with
  | [], _ => trivial
  | group :: _, _ => trivial
  | unary _ :: _, h => exact h.elim
  | binary _ _ level :: _, h => exact Nat.lt_of_lt_of_le h hr

theorem reduce_of_waits {rank : Nat} {stack : List Frame} (h : Waits rank stack) (e : Expr) :
    reduce rank stack e = (stack, e) := by
  unfold Waits at h
  split at h
  · rfl
  · rfl
  · exact h.elim
  · simp [reduce, Nat.not_le.2 h]

theorem waits_reduce (rank : Nat) (stack : List Frame) (e : Expr) :
    Waits rank (reduce rank stack e).1 := by
  fun_induction reduce rank stack e with
  | case1 operator stack e ih => exact ih
  | case2 left operator level stack e hr ih => exact ih
  | case3 left operator level stack e hr => exact Nat.not_le.1 hr
  | case4 stack e hu hb =>
    match stack with
    | [] => trivial
    | group :: _ => trivial
    | unary operator :: stack => exact hu operator stack rfl
    | binary left operator level :: stack => exact (hb left operator level stack rfl).elim

theorem reduce_reduce {rank tighter : Nat} (hr : rank ≤ tighter) (stack : List Frame) (e : Expr) :
    reduce rank (reduce tighter stack e).1 (reduce tighter stack e).2 = reduce rank stack e := by
  fun_induction reduce tighter stack e with
  | case1 operator stack e ih => rw [ih]; rfl
  | case2 left operator level stack e ht ih => rw [ih]; simp [reduce, Nat.le_trans hr ht]
  | case3 left operator level stack e ht => rfl
  | case4 stack e hu hb => rfl

theorem reduce_congr {rank tighter : Nat} (hr : rank ≤ tighter) {stack stack' : List Frame}
    {e e' : Expr} (h : reduce tighter stack e = reduce tighter stack' e') :
    reduce rank stack e = reduce rank stack' e' := by
  rw [← reduce_reduce hr stack e, h, reduce_reduce hr]

theorem reduce_zero (stack : List Frame) (e : Expr) :
    (reduce 0 stack e).1 = [] ∨ ∃ outer, (reduce 0 stack e).1 = group :: outer := by
  have h := waits_reduce 0 stack e
  generalize (reduce 0 stack e).1 = closed at h
  match closed, h with
  | [], _ => exact .inl rfl
  | group :: outer, _ => exact .inr ⟨outer, rfl⟩
  | unary _ :: _, h => exact h.elim
  | binary _ _ level :: _, h => exact absurd h (Nat.not_lt_zero level.rank)

/-- The tokens that opened the frames of a stack. A binary frame was opened where no frame of its
own level or a tighter one was waiting. -/
inductive Opens : List Frame → List Token → Prop where
  | nil : Opens [] []
  | unary {stack : List Frame} {tokens : List Token} {operator : Token} :
      Opens stack tokens → operator.kind.isUnary →
      Opens (.unary operator :: stack) (tokens ++ [operator])
  | binary {stack : List Frame} {before after : List Token} {left : Expr} {operator : Token}
      {level : Level} :
      Opens stack before → Waits level.rank stack → Derives (.chain level) after left →
      operator.kind.level? = some level →
      Opens (.binary left operator level :: stack) (before ++ after ++ [operator])
  | group {stack : List Frame} {tokens : List Token} {opening : Token} :
      Opens stack tokens → opening.kind = .leftParen →
      Opens (.group :: stack) (tokens ++ [opening])

def Fits (n : Nonterminal) (stack : List Frame) : Prop :=
  n.rank < Level.unaryRank → Waits n.rank stack

/-- Reducing moves tokens from the stack into the phrase on top of it, and what is left on the
stack is waiting. -/
theorem Opens.reduce {stack : List Frame} {before after : List Token} {n : Nonterminal} {e : Expr}
    {level : Level} (ho : Opens stack before) (hd : Derives n after e) (hf : Fits n stack)
    (hr : level.rank ≤ n.rank) :
    ∃ opened phrase, opened ++ phrase = before ++ after ∧
      Opens (reduce level.rank stack e).1 opened ∧
      Derives (.chain level) phrase (reduce level.rank stack e).2 := by
  induction ho generalizing n after e with
  | nil => exact ⟨[], after, rfl, .nil, hd.toChain hr⟩
  | @group stack tokens opening ho hk ih =>
    exact ⟨tokens ++ [opening], after, rfl, ho.group hk, hd.toChain hr⟩
  | @unary stack tokens operator ho hk ih =>
    have hn : Level.unaryRank ≤ n.rank := Nat.not_lt.1 fun hlt => hf hlt
    have hd : Derives .unary (operator :: after) (.unary operator e) :=
      .unary (Kind.isUnary_iff.1 hk) (hd.toUnary hn)
    obtain ⟨opened, phrase, htokens, hopens, hphrase⟩ :=
      ih hd (fun hlt => absurd hlt (Nat.lt_irrefl _)) (Nat.le_of_lt level.rank_lt_unaryRank)
    exact ⟨opened, phrase, by simpa using htokens, hopens, hphrase⟩
  | @binary stack tokens phrase left operator inner ho hw hl hk ih =>
    rw [Frame.reduce]
    split
    next hle =>
      have hlt : inner.rank < n.rank := by
        rcases Nat.lt_or_ge n.rank Level.unaryRank with hn | hn
        · exact hf hn
        · exact Nat.lt_of_lt_of_le inner.rank_lt_unaryRank hn
      have hd : Derives (.chain inner) (phrase ++ operator :: after) (.binary left operator e) :=
        .binary hl ((Level.mem_operators_iff _ _).2 hk) (hd.toOperand hlt)
      obtain ⟨opened, phrase', htokens, hopens, hphrase⟩ := ih hd (fun _ => hw) hle
      exact ⟨opened, phrase', by simpa using htokens, hopens, hphrase⟩
    next hle =>
      exact ⟨_, after, rfl, .binary ho hw hl hk, hd.toChain hr⟩

end Reckoner.Frame
