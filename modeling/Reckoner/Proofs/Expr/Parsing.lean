import Reckoner.Proofs.Expr.Frames

/-!
The parser against the grammar. Every accepting run has a derivation behind it, found by an
invariant of the states: the stack stands for the tokens read so far. In the other direction a
derivation drives the parser, from any stack its phrase fits on. A tree is parsed exactly where the
tokens up to an end token derive it, and there is at most one such place.
-/
namespace Reckoner
namespace ParseState

inductive Reads : ParseState → List Token → ParseState → Prop where
  | refl (state : ParseState) : Reads state [] state
  | step {state next last : ParseState} {t : Token} {tokens : List Token} :
      state.step t = .next next → Reads next tokens last → Reads state (t :: tokens) last

theorem Reads.single {state next : ParseState} {t : Token} (h : state.step t = .next next) :
    Reads state [t] next :=
  .step h (.refl next)

theorem Reads.trans {first second third : ParseState} {before after : List Token}
    (left : Reads first before second) (right : Reads second after third) :
    Reads first (before ++ after) third := by
  induction left with
  | refl => exact right
  | step h _ ih => exact .step h (ih right)

theorem Reads.run {first last : ParseState} {before : List Token} (h : Reads first before last)
    (line : Nat) (span : Span) (after : List Token) :
    ∃ line' span', first.run line span (before ++ after) = last.run line' span' after := by
  induction h generalizing line span with
  | refl => exact ⟨line, span, rfl⟩
  | @step state next last t tokens hs _ ih =>
    obtain ⟨line', span', hrun⟩ := ih t.line t.span
    refine ⟨line', span', ?_⟩
    rw [List.cons_append, ParseState.run, hs]
    exact hrun

/-! Single steps, by what they do. -/

theorem step_unary {stack : List Frame} {t : Token} (h : t.kind.isUnary) :
    (operand stack).step t = .next (operand (.unary t :: stack)) := by
  simp [step, stepOperand, h]

theorem step_group {stack : List Frame} {t : Token} (h : t.kind = .leftParen) :
    (operand stack).step t = .next (operand (.group :: stack)) := by
  simp [step, stepOperand, h, Kind.isUnary]

theorem step_operand {stack : List Frame} {t : Token} {value : Value}
    (h : t.operand? = some value) :
    (operand stack).step t = .next (complete stack (.literal value)) := by
  have hk := (Derives.ofOperand? h).operators_eq
  have hu : ¬ t.kind.isUnary := by
    intro hu
    simp [Expr.operators, Kind.isOperator, hu] at hk
  have hp : t.kind ≠ .leftParen := by
    intro hp
    simp [Token.operand?, hp] at h
  simp [step, stepOperand, hu, hp, h]

theorem step_binary {stack : List Frame} {e : Expr} {t : Token} {level : Level}
    (h : t.kind.level? = some level) :
    (complete stack e).step t =
      .next (operand (.binary (Frame.reduce level.rank stack e).2 t level
        :: (Frame.reduce level.rank stack e).1)) := by
  simp [step, stepComplete, h]

theorem step_close {stack outer : List Frame} {e inner : Expr} {t : Token}
    (h : t.kind = .rightParen) (hr : Frame.reduce 0 stack e = (.group :: outer, inner)) :
    (complete stack e).step t = .next (complete outer (.grouping inner)) := by
  simp [step, stepComplete, h, hr, Kind.level?]

theorem step_end {stack : List Frame} {e tree : Expr} {t : Token}
    (h : t.kind = .eof) (hr : Frame.reduce 0 stack e = ([], tree)) :
    (complete stack e).step t = .done tree := by
  simp [step, stepComplete, h, hr, Kind.level?]

end ParseState

/-! Completeness: the induction is on the derivation, and it leaves the parser in a state that is
the intended one after reducing, not before. -/

theorem Derives.reads {n : Nonterminal} {tokens : List Token} {e : Expr}
    (h : Derives n tokens e) : ∀ stack, Frame.Fits n stack →
    ∃ stack' e', ParseState.Reads (.operand stack) tokens (.complete stack' e') ∧
      Frame.reduce n.rank stack' e' = Frame.reduce n.rank stack e := by
  induction h with
  | @operand level tokens e _ ih =>
    intro stack hf
    have hw : Frame.Waits level.rank stack := hf level.rank_lt_unaryRank
    have hle : level.rank ≤ level.operand.rank := by rw [Level.rank_operand]; omega
    obtain ⟨stack', e', hreads, hreduce⟩ := ih stack fun _ => hw.mono hle
    exact ⟨stack', e', hreads, Frame.reduce_congr hle hreduce⟩
  | @binary level before after left right operator _ hk _ ihl ihr =>
    intro stack hf
    have hw : Frame.Waits level.rank stack := hf level.rank_lt_unaryRank
    have hlt : level.rank < level.operand.rank := by rw [Level.rank_operand]; omega
    obtain ⟨stack₁, e₁, hreads₁, hreduce₁⟩ := ihl stack hf
    change Frame.reduce level.rank stack₁ e₁ = Frame.reduce level.rank stack left at hreduce₁
    rw [Frame.reduce_of_waits hw] at hreduce₁
    have hstep := @ParseState.step_binary stack₁ e₁ _ _
      ((Level.mem_operators_iff _ _).1 hk)
    rw [hreduce₁] at hstep
    obtain ⟨stack₂, e₂, hreads₂, hreduce₂⟩ :=
      ihr (.binary left operator level :: stack) fun _ => hlt
    refine ⟨stack₂, e₂, hreads₁.trans (.step hstep hreads₂), ?_⟩
    have hreduce := Frame.reduce_congr (Nat.le_of_lt hlt) hreduce₂
    simpa [Nonterminal.rank, Frame.reduce] using hreduce
  | @unary tokens e operator hk _ ih =>
    intro stack _
    obtain ⟨stack', e', hreads, hreduce⟩ :=
      ih (.unary operator :: stack) fun hlt => absurd hlt (Nat.lt_irrefl _)
    exact ⟨stack', e', .step (ParseState.step_unary (Kind.isUnary_iff.2 hk)) hreads, hreduce⟩
  | primary _ ih =>
    intro stack _
    obtain ⟨stack', e', hreads, hreduce⟩ :=
      ih stack fun hlt => absurd hlt (Nat.not_lt.2 (Nat.le_succ _))
    exact ⟨stack', e', hreads, Frame.reduce_congr (Nat.le_succ _) hreduce⟩
  | true_ hk =>
    intro stack _
    exact ⟨stack, _, .single (ParseState.step_operand (by simp [Token.operand?, hk])), rfl⟩
  | false_ hk =>
    intro stack _
    exact ⟨stack, _, .single (ParseState.step_operand (by simp [Token.operand?, hk])), rfl⟩
  | nil_ hk =>
    intro stack _
    exact ⟨stack, _, .single (ParseState.step_operand (by simp [Token.operand?, hk])), rfl⟩
  | literal hk hl =>
    intro stack _
    have ho := Token.operand?_eq_some_iff.2 (.inr (.inr (.inr ⟨hk, hl⟩)))
    exact ⟨stack, _, .single (ParseState.step_operand ho), rfl⟩
  | @group tokens e opening closing ho hc _ ih =>
    intro stack _
    obtain ⟨stack', e', hreads, hreduce⟩ := ih (.group :: stack) fun _ => trivial
    have hclose := ParseState.step_close hc hreduce
    exact ⟨stack, _, .step (ParseState.step_group ho) (hreads.trans (.single hclose)), rfl⟩

theorem Expr.parse_of_derives {tokens rest : List Token} {tree : Expr} {t : Token}
    (h : Derives (.chain .equality) tokens tree) (ht : t.kind = .eof) :
    Expr.parse (tokens ++ t :: rest) = .ok tree := by
  obtain ⟨stack, e, hreads, hreduce⟩ := h.reads [] fun _ => trivial
  obtain ⟨line, span, hrun⟩ := hreads.run 1 ⟨0, 0⟩ (t :: rest)
  have hend := ParseState.step_end ht hreduce
  rw [Expr.parse, hrun, ParseState.run, hend]

/-! Soundness: the induction is on the tokens still to come. -/

namespace ParseState

/-- The tokens read so far are those of the open frames, and of a complete operand if there is
one. -/
def Spells : ParseState → List Token → Prop
  | operand stack, tokens => Frame.Opens stack tokens
  | complete stack e, tokens =>
    ∃ before after, tokens = before ++ after ∧ Frame.Opens stack before ∧ Derives .primary after e

theorem spells_reduce {stack : List Frame} {e : Expr} {tokens : List Token} (level : Level)
    (h : (complete stack e).Spells tokens) :
    ∃ before after, before ++ after = tokens ∧
      Frame.Opens (Frame.reduce level.rank stack e).1 before ∧
      Derives (.chain level) after (Frame.reduce level.rank stack e).2 := by
  obtain ⟨before, after, rfl, hopens, hphrase⟩ := h
  refine hopens.reduce hphrase (fun hlt => absurd hlt (Nat.not_lt.2 (Nat.le_succ _))) ?_
  exact Nat.le_succ_of_le (Nat.le_of_lt level.rank_lt_unaryRank)

theorem Spells.step_operand {stack : List Frame} {tokens : List Token} {t : Token}
    {next : ParseState} (h : Frame.Opens stack tokens)
    (hs : (operand stack).step t = .next next) : next.Spells (tokens ++ [t]) := by
  simp only [step, stepOperand] at hs
  split at hs
  next hu => cases hs; exact h.unary hu
  next =>
    split at hs
    next hp => cases hs; exact h.group hp
    next =>
      split at hs
      next value ho => cases hs; exact ⟨tokens, [t], rfl, h, .ofOperand? ho⟩
      next => cases hs

theorem Spells.step_complete {stack : List Frame} {e : Expr} {tokens : List Token} {t : Token}
    {next : ParseState} (h : (complete stack e).Spells tokens)
    (hs : (complete stack e).step t = .next next) : next.Spells (tokens ++ [t]) := by
  cases hk : t.kind.level? with
  | some level =>
    rw [step_binary hk] at hs
    cases hs
    obtain ⟨before, after, rfl, hopens, hphrase⟩ := spells_reduce level h
    exact hopens.binary (Frame.waits_reduce _ _ _) hphrase hk
  | none =>
    simp only [step, stepComplete, hk] at hs
    split at hs
    next kind closed outer inner hp hr =>
      cases hs
      obtain ⟨before, after, rfl, hopens, hphrase⟩ := spells_reduce .equality h
      simp only [Level.rank, hr] at hopens hphrase
      cases hopens with
      | @group _ opened opening hopens ho =>
        exact ⟨opened, opening :: after ++ [t], by simp, hopens, .group ho hp hphrase⟩
    next => cases hs
    next => cases hs

theorem Spells.step {state next : ParseState} {tokens : List Token} {t : Token}
    (h : state.Spells tokens) (hs : state.step t = .next next) : next.Spells (tokens ++ [t]) := by
  cases state with
  | operand stack => exact Spells.step_operand h hs
  | complete stack e => exact Spells.step_complete h hs

/-- The parser is done at an end token only, with the tree of all tokens before it. -/
theorem Spells.done {state : ParseState} {tokens : List Token} {t : Token} {tree : Expr}
    (h : state.Spells tokens) (hs : state.step t = .done tree) :
    t.kind = .eof ∧ Derives (.chain .equality) tokens tree := by
  cases state with
  | operand stack =>
    simp only [ParseState.step, stepOperand] at hs
    split at hs
    · cases hs
    · split at hs
      · cases hs
      · split at hs <;> cases hs
  | complete stack e =>
    simp only [ParseState.step, stepComplete] at hs
    split at hs
    · cases hs
    · split at hs
      · cases hs
      next he hr =>
        cases hs
        obtain ⟨before, after, rfl, hopens, hphrase⟩ := spells_reduce .equality h
        simp only [Level.rank, hr] at hopens hphrase
        cases hopens
        exact ⟨he, hphrase⟩
      · cases hs

theorem Spells.run {state : ParseState} {before tokens : List Token} {line : Nat} {span : Span}
    {tree : Expr} (h : state.Spells before) (hr : state.run line span tokens = .ok tree) :
    ∃ middle t after, tokens = middle ++ t :: after ∧ t.kind = .eof ∧
      Derives (.chain .equality) (before ++ middle) tree := by
  induction tokens generalizing state before line span with
  | nil => cases hr
  | cons t tokens ih =>
    rw [ParseState.run] at hr
    split at hr
    next next hs =>
      obtain ⟨middle, last, after, rfl, hk, hd⟩ := ih (h.step hs) hr
      exact ⟨t :: middle, last, after, rfl, hk, by simpa using hd⟩
    next hs =>
      cases hr
      obtain ⟨hk, hd⟩ := h.done hs
      exact ⟨[], t, tokens, rfl, hk, by simpa using hd⟩
    next => cases hr

end ParseState

theorem Expr.derives_of_parse {tokens : List Token} {tree : Expr}
    (h : Expr.parse tokens = .ok tree) :
    ∃ before t after, tokens = before ++ t :: after ∧ t.kind = .eof ∧
      Derives (.chain .equality) before tree := by
  have hnil : (ParseState.operand []).Spells [] := Frame.Opens.nil
  exact hnil.run h

namespace Expr

/-- The tokens before index `k` derive the tree, and the token at `k` is an end token. -/
def EndsAt (tokens : List Token) (k : Nat) (tree : Expr) : Prop :=
  (∃ t, tokens[k]? = some t ∧ t.kind = .eof) ∧
    Derives (.chain .equality) (tokens.take k) tree

section
variable {tokens : List Token} {k k' : Nat} {tree tree' : Expr}

theorem EndsAt.le (h : EndsAt tokens k tree) (h' : EndsAt tokens k' tree') : k' ≤ k := by
  obtain ⟨⟨t, ht, hk⟩, _⟩ := h
  apply Nat.le_of_not_lt
  intro hlt
  have hmem : t ∈ tokens.take k' := by
    apply List.mem_of_getElem?
    rw [List.getElem?_take_of_lt hlt, ht]
  exact h'.2.kind_ne_eof t hmem hk

theorem EndsAt.parse_take_append (h : EndsAt tokens k tree) (rest : List Token) :
    Expr.parse (tokens.take (k + 1) ++ rest) = .ok tree := by
  obtain ⟨⟨t, ht, hk⟩, hd⟩ := h
  rw [List.take_add_one, ht]
  simpa using parse_of_derives hd hk

theorem EndsAt.parse_eq_ok (h : EndsAt tokens k tree) : Expr.parse tokens = .ok tree := by
  rw [← List.take_append_drop (k + 1) tokens]
  exact h.parse_take_append _

theorem exists_endsAt_of_parse (h : Expr.parse tokens = .ok tree) :
    ∃ k, EndsAt tokens k tree := by
  obtain ⟨before, t, after, rfl, hk, hd⟩ := derives_of_parse h
  exact ⟨before.length, ⟨t, by simp, hk⟩, by simpa using hd⟩

end

/-- A token list is parsed exactly where some of its tokens derive the tree and an end token comes
next. There is one such place and one such tree at most, the operators of the tree are those of the
phrase, and nothing behind the end token matters. -/
theorem parse_eq_ok_iff_endsAt (tokens : List Token) :
    (∀ tree, Expr.parse tokens = .ok tree ↔ ∃ k, EndsAt tokens k tree) ∧
    (∀ k k' tree tree', EndsAt tokens k tree → EndsAt tokens k' tree' → k = k' ∧ tree = tree') ∧
    (∀ k tree, EndsAt tokens k tree →
      tree.operators = (tokens.take k).filter (·.kind.isOperator) ∧
      ∀ rest, Expr.parse (tokens.take (k + 1) ++ rest) = .ok tree) := by
  refine ⟨fun tree => ⟨exists_endsAt_of_parse, ?_⟩, ?_, ?_⟩
  · rintro ⟨k, h⟩
    exact h.parse_eq_ok
  · intro k k' tree tree' h h'
    refine ⟨Nat.le_antisymm (h'.le h) (h.le h'), ?_⟩
    have heq := h.parse_eq_ok.symm.trans h'.parse_eq_ok
    exact Except.ok.inj heq
  · intro k tree h
    exact ⟨h.2.operators_eq, h.parse_take_append⟩

end Expr
end Reckoner
