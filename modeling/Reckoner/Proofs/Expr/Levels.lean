import Reckoner.Proofs.Expr.Parsing
import Reckoner.Proofs.Expr.Streams

/-!
The parser of the levels and the parser with a stack are the same. A level may stop in front of an
operator that it cannot use, because no operand follows; then the failure behind the operator is
kept, and nothing that is tried in front of the operator gets further.
-/
namespace Reckoner.Descent

open TokenParser
open TokenStream

variable {stream : TokenStream} {start mid stop : Nat}

/-- An operand from `start` on has its first fault at this place, however deep it stands. -/
def Faults (stream : TokenStream) (start i : Nat) (message : Option Fault) : Prop :=
  ∀ depth, stream.check (.operand depth) start = some (message.getD .expectedExpression, i)

/-- What a parser of a nonterminal may find: a phrase that is not followed by an operator it could
go on with, such an operator without an operand behind it, or a failure. -/
inductive Finds (stream : TokenStream) (n : Nonterminal) (start : Nat) :
    Except Failure (Success Expr) → Prop where
  | phrase {phrase : List Token} {tree : Expr} {stop : Nat} {avoided : Option Failure} :
      stream.Reads start phrase stop → Derives n phrase tree →
      (∀ t level, stream.tokens[stop]? = some t → t.kind.level? = some level →
        level.rank < n.rank) →
      Stale stream stop avoided → Finds stream n start (.ok ⟨tree, stop, avoided⟩)
  | blocked {tree : Expr} {stop i : Nat} {message : Option Fault} {t : Token} {level : Level} :
      start ≤ stop → stream.tokens[stop]? = some t → t.kind.level? = some level →
      n.rank ≤ level.rank → stop < i → Faults stream start i message →
      Finds stream n start (.ok ⟨tree, stop, some (stream.failureAt i message)⟩)
  | failed {i : Nat} {message : Option Fault} :
      start ≤ i → Faults stream start i message →
      Finds stream n start (.error (stream.failureAt i message))

theorem Faults.behind {i : Nat} {message : Option Fault} (h : Faults stream mid i message)
    (hcheck : ∀ depth, ∃ depth',
      stream.check (.operand depth) start = stream.check (.operand depth') mid) :
    Faults stream start i message := by
  intro depth
  obtain ⟨depth', heq⟩ := hcheck depth
  exact heq.trans (h depth')

theorem Finds.merge_stale {n : Nonterminal} {tree : Expr} {avoided avoided' : Option Failure}
    (h : Finds stream n start (.ok ⟨tree, stop, avoided'⟩)) (hs : Stale stream mid avoided)
    (hle : mid ≤ stop) :
    Finds stream n start (.ok ⟨tree, stop, avoided.merge Failure.max avoided'⟩) := by
  have hs := hs.mono hle
  cases h with
  | phrase hreads hderives hhead hstale =>
    exact .phrase hreads hderives hhead (hs.merge hstale)
  | blocked hstop ht hl hrank hlt hfault =>
    rw [hs.merge_failureAt hlt]
    exact .blocked hstop ht hl hrank hlt hfault

/-! Operands. -/

theorem literal_of_operand? {t : Token} {value : Value} (h : stream.tokens[start]? = some t)
    (ho : t.operand? = some value) :
    literal stream start = .ok ⟨.literal value, start + 1, none⟩ := by
  rcases Token.operand?_eq_some_iff.1 ho with ⟨hk, rfl⟩ | ⟨hk, rfl⟩ | ⟨hk, rfl⟩ | ⟨hk | hk, hl⟩
  all_goals simp [literal, filterMap, *]

theorem literal_of_none (h : ∀ t, stream.tokens[start]? = some t → t.operand? = none) :
    ∃ message, literal stream start = .error (stream.failureAt start message) ∧
      message.getD .expectedExpression = .expectedExpression := by
  cases ht : stream.tokens[start]? with
  | none => exact ⟨none, by simp [literal, filterMap, ht, failureAt], rfl⟩
  | some t =>
    refine ⟨some .expectedExpression, ?_, rfl⟩
    have ho := h t ht
    simp only [literal, filterMap, ht, failureAt, ParseError.unexpected, ParseError.withMessage]
    cases hk : t.kind with
    | keyword word => cases word <;> simp [Token.operand?, hk] at ho <;> rfl
    | number | string =>
      have hl : t.literal = none := by simpa [Token.operand?, hk] using ho
      rw [hl]
      rfl
    | _ => rfl

theorem judge_of_isUnary {t : Token} (h : t.kind.isUnary) (depth : Nat) :
    (Viability.operand depth).judge t = .next (.operand depth) := by
  rcases Kind.isUnary_iff.1 h with hk | hk <;> simp [Viability.judge, hk]

theorem judge_of_no_operand {t : Token} (hu : ¬ t.kind.isUnary) (ho : t.operand? = none)
    (hp : t.kind ≠ .leftParen) (depth : Nat) : (Viability.operand depth).judge t = .reject := by
  have hjudge := ParseState.judge_operand (List.replicate depth .group) t
  have hdepth : Frame.depth (List.replicate depth .group) = depth := by
    simp [Frame.depth, List.countP_replicate, Frame.isGroup]
  rw [hdepth] at hjudge
  simp [hjudge, ParseState.stepOperand, hu, hp, ho, ParseStep.verdict]

/-! What is expected behind an expression. -/

theorem andThen_expected {p : TokenParser Expr} {kinds : List Kind} (fault : Fault)
    (h : Finds stream (.chain .equality) start (p stream start))
    (hkinds : ∀ kind ∈ kinds, kind.level? = none) :
    (∃ phrase tree stop, stream.Reads start phrase stop ∧ Derives (.chain .equality) phrase tree ∧
      ((∃ t avoided, stream.tokens[stop]? = some t ∧ t.kind ∈ kinds ∧
          Stale stream (stop + 1) avoided ∧
          p.andThen ((oneOf kinds).withMessage fault) stream start =
            .ok ⟨(tree, t), stop + 1, avoided⟩) ∨
        ((∀ t, stream.tokens[stop]? = some t → t.kind ∉ kinds ∧ t.kind.level? = none) ∧
          p.andThen ((oneOf kinds).withMessage fault) stream start =
            .error (stream.failureAt stop (some fault))))) ∨
    ∃ i message, start ≤ i ∧ Faults stream start i message ∧
      p.andThen ((oneOf kinds).withMessage fault) stream start =
        .error (stream.failureAt i message) := by
  unfold andThen
  generalize p stream start = result at h
  cases h with
  | failed hle hfault => exact .inr ⟨_, _, hle, hfault, rfl⟩
  | @blocked tree stop i message u level hle hu hl _ hlt hfault =>
    have hnot : ∀ t, stream.tokens[stop]? = some t → t.kind ∉ kinds := by
      rw [hu]
      rintro _ ⟨⟩ hm
      cases (hkinds _ hm).symm.trans hl
    refine .inr ⟨i, message, by omega, hfault, ?_⟩
    simp only [expected_of_notMem fault hnot, Option.elim, max_failureAt_of_gt hlt]
  | @phrase phrase tree stop avoided hreads hderives hhead hstale =>
    refine .inl ⟨phrase, tree, stop, hreads, hderives, ?_⟩
    by_cases hmem : ∃ t, stream.tokens[stop]? = some t ∧ t.kind ∈ kinds
    · obtain ⟨t, ht, hk⟩ := hmem
      refine .inl ⟨t, avoided, ht, hk, hstale.mono (Nat.le_succ _), ?_⟩
      simp only [expected_of_mem fault ht hk]
      cases avoided <;> rfl
    · have hnot : ∀ t, stream.tokens[stop]? = some t → t.kind ∉ kinds :=
        fun t ht hk => hmem ⟨t, ht, hk⟩
      refine .inr ⟨fun t ht => ⟨hnot t ht, ?_⟩, ?_⟩
      · cases hl : t.kind.level? with
        | none => rfl
        | some level => exact absurd (hhead t level ht hl) (Nat.not_lt_zero _)
      · simp only [expected_of_notMem fault hnot]
        rw [hstale.elim_failureAt (Nat.le_refl _)]

theorem check_of_closing {phrase : List Token} {tree : Expr} {kind : Kind} {depth : Nat}
    (hreads : stream.Reads start phrase stop) (hderives : Derives (.chain .equality) phrase tree)
    (hkind : kind = if depth = 0 then .eof else .rightParen)
    (hnot : ∀ t, stream.tokens[stop]? = some t → t.kind ∉ [kind] ∧ t.kind.level? = none) :
    stream.check (.operand depth) start = some ((Viability.complete depth).fault, stop) := by
  rw [check_of_derives hreads hderives]
  refine check_of_reject fun t ht => ?_
  obtain ⟨hne, hl⟩ := hnot t ht
  rw [Viability.judge_complete_of_level?_eq_none hl]
  split
  next hk => exact absurd (List.mem_singleton.2 (hk.trans hkind.symm)) hne
  next hk => exact absurd (List.mem_singleton.2 (hk.trans hkind.symm)) hne
  next => rfl

theorem grouping_finds {expression : TokenParser Expr} {t : Token}
    (ht : stream.tokens[start]? = some t) (hk : t.kind = .leftParen)
    (h : Finds stream (.chain .equality) (start + 1) (expression stream (start + 1))) :
    (∃ phrase tree stop avoided, stream.Reads start phrase stop ∧ Derives .primary phrase tree ∧
      Stale stream stop avoided ∧
      grouping expression stream start = .ok ⟨tree, stop, avoided⟩) ∨
    ∃ i message, start < i ∧ Faults stream start i message ∧
      grouping expression stream start = .error (stream.failureAt i message) := by
  have hopen := expected_of_mem .expectedExpression ht (show t.kind ∈ [.leftParen] by simp [hk])
  have hcheck (depth : Nat) : stream.check (.operand depth) start =
      stream.check (.operand (depth + 1)) (start + 1) :=
    check_of_next ht (by simp [Viability.judge, hk])
  unfold grouping TokenParser.map
  rw [andThen_andThen_of_ok hopen]
  rcases @andThen_expected _ _ _ [.rightParen] .expectedRightParen h (by decide) with
    ⟨phrase, tree, stop, hreads, hderives, ⟨u, avoided, hu, hmem, hstale, heq⟩ | ⟨hnot, heq⟩⟩ |
      ⟨i, message, hle, hfault, heq⟩
  · rw [heq]
    have hgroup := ((Reads.single ht).append hreads).append (.single hu)
    exact .inl ⟨_, .grouping tree, _, avoided, hgroup,
      .group hk (List.mem_singleton.1 hmem) hderives, hstale, rfl⟩
  · rw [heq]
    refine .inr ⟨stop, some .expectedRightParen, hreads.le, fun depth => ?_, rfl⟩
    rw [hcheck]
    exact check_of_closing hreads hderives rfl hnot
  · rw [heq]
    exact .inr ⟨i, message, hle, hfault.behind fun depth => ⟨depth + 1, hcheck depth⟩, rfl⟩

theorem primary_finds {expression : TokenParser Expr}
    (h : ∀ t, stream.tokens[start]? = some t →
      Finds stream (.chain .equality) (start + 1) (expression stream (start + 1)))
    (hu : ∀ t, stream.tokens[start]? = some t → ¬ t.kind.isUnary) :
    Finds stream .primary start (primary expression stream start) := by
  have hrank (level : Level) : level.rank < Nonterminal.primary.rank :=
    Nat.lt_succ_of_lt level.rank_lt_unaryRank
  unfold primary orElse
  by_cases ho : ∃ t value, stream.tokens[start]? = some t ∧ t.operand? = some value
  · obtain ⟨t, value, ht, hvalue⟩ := ho
    rw [literal_of_operand? ht hvalue]
    exact .phrase (.single ht) (.ofOperand? hvalue) (fun _ level _ _ => hrank level)
      (.of_none stream _)
  · have hnone : ∀ t, stream.tokens[start]? = some t → t.operand? = none := fun t ht =>
      Option.eq_none_iff_forall_ne_some.2 fun value hv => ho ⟨t, value, ht, hv⟩
    obtain ⟨message, hliteral, hmessage⟩ := literal_of_none hnone
    rw [hliteral]
    by_cases hp : ∃ t, stream.tokens[start]? = some t ∧ t.kind = .leftParen
    · obtain ⟨t, ht, hk⟩ := hp
      rcases grouping_finds ht hk (h t ht) with
        ⟨phrase, tree, stop, avoided, hreads, hderives, hstale, heq⟩ |
          ⟨i, message', hlt, hfault, heq⟩
      · rw [heq]
        exact .phrase hreads hderives (fun _ level _ _ => hrank level) hstale
      · rw [heq]
        dsimp only [Except.mapError]
        rw [max_failureAt_of_gt hlt]
        exact .failed (Nat.le_of_lt hlt) hfault
    · -- Both alternatives fail here, and either message stands for an expression.
      have hopen := @expected_of_notMem stream start [.leftParen] .expectedExpression
        fun t ht hm => hp ⟨t, ht, List.mem_singleton.1 hm⟩
      have heq : grouping expression stream start =
          .error (stream.failureAt start (some .expectedExpression)) := by
        simp only [grouping, TokenParser.map, andThen, hopen]
        rfl
      have hfault : (message.or (some .expectedExpression)).getD .expectedExpression =
          .expectedExpression := by
        cases message with
        | none => rfl
        | some fault => exact hmessage
      rw [heq]
      dsimp only [Except.mapError]
      rw [max_failureAt_self]
      refine .failed (Nat.le_refl _) fun depth => ?_
      rw [hfault]
      exact check_of_reject fun t ht =>
        judge_of_no_operand (hu t ht) (hnone t ht) (fun hk => hp ⟨t, ht, hk⟩) depth

/-! Unary operators. -/

theorem derives_signs {signs phrase : List Token} {e : Expr} (hs : ∀ t ∈ signs, t.kind.isUnary)
    (h : Derives .unary phrase e) : Derives .unary (signs ++ phrase) (signs.foldr .unary e) := by
  induction signs with
  | nil => exact h
  | cons t signs ih =>
    obtain ⟨ht, hs⟩ := List.forall_mem_cons.1 hs
    exact .unary (Kind.isUnary_iff.1 ht) (ih hs)

theorem rounds_signs (stream : TokenStream) (start : Nat) : ∃ signs mid,
    (oneOf [.bang, .minus]).rounds stream start =
      ⟨signs, mid, some (stream.failureAt mid none)⟩ ∧
    stream.Reads start signs mid ∧ (∀ t ∈ signs, t.kind.isUnary) ∧
    (∀ t, stream.tokens[mid]? = some t → ¬ t.kind.isUnary) ∧
    ∀ depth, stream.check (.operand depth) start = stream.check (.operand depth) mid := by
  generalize hleft : stream.left start = left
  induction left using Nat.strongRecOn generalizing start with
  | ind left ih =>
    have hmem {t : Token} : t.kind ∈ [.bang, .minus] ↔ t.kind.isUnary := by
      simp [Kind.isUnary_iff]
    by_cases hsign : ∃ t, stream.tokens[start]? = some t ∧ t.kind.isUnary
    · obtain ⟨t, ht, hu⟩ := hsign
      have hlt := left_lt ht (Nat.lt_succ_self start)
      obtain ⟨signs, mid, heq, hreads, hsigns, hhead, hcheck⟩ :=
        ih _ (hleft ▸ hlt) (start + 1) rfl
      refine ⟨t :: signs, mid, ?_, (Reads.single ht).append hreads,
        List.forall_mem_cons.2 ⟨hu, hsigns⟩, hhead, fun depth => ?_⟩
      · rw [rounds_of_ok (oneOf_of_mem ht (hmem.2 hu)) hlt, heq]
        rfl
      · rw [check_of_next ht (judge_of_isUnary hu depth), hcheck]
    · have hnot : ∀ t, stream.tokens[start]? = some t → ¬ t.kind.isUnary :=
        fun t ht hu => hsign ⟨t, ht, hu⟩
      rw [rounds_of_error (oneOf_of_notMem fun t ht => mt hmem.1 (hnot t ht))]
      exact ⟨[], start, rfl, .nil stream start, List.forall_mem_nil _, hnot, fun _ => rfl⟩

theorem unary_finds {expression : TokenParser Expr}
    (h : ∀ mid t, start ≤ mid → stream.tokens[mid]? = some t →
      Finds stream (.chain .equality) (mid + 1) (expression stream (mid + 1))) :
    Finds stream .unary start (unary expression stream start) := by
  obtain ⟨signs, mid, heq, hreads, hsigns, hhead, hcheck⟩ := rounds_signs stream start
  have hprimary := primary_finds (fun t ht => h mid t hreads.le ht) hhead
  unfold unary TokenParser.map andThen many
  simp only [heq]
  generalize primary expression stream mid = result at hprimary
  cases hprimary with
  | @failed i message hi hfault =>
    have hmax : (stream.failureAt i message).max (stream.failureAt mid none) =
        stream.failureAt i message :=
      (Stale.unexpected stream mid).elim_failureAt hi
    dsimp only [Option.elim, Except.map]
    rw [hmax]
    exact .failed (Nat.le_trans hreads.le hi) (hfault.behind fun depth => ⟨depth, hcheck depth⟩)
  | @blocked _ _ _ _ _ level _ _ _ hrank =>
    exact absurd level.rank_lt_unaryRank (Nat.not_lt.2 (Nat.le_of_succ_le hrank))
  | phrase hphrase hderives _ hstale =>
    exact .phrase (hreads.append hphrase) (derives_signs hsigns (.primary hderives))
      (fun _ level _ _ => level.rank_lt_unaryRank)
      (((Stale.unexpected stream mid).mono hphrase.le).merge hstale)

/-! Levels. -/

section
variable {level inner : Level} {operand : TokenParser Expr} {t : Token}

theorem rounds_of_notMem (h : ∀ t, stream.tokens[mid]? = some t → t.kind ∉ level.operators) :
    ((oneOf level.operators).andThen operand).rounds stream mid =
      ⟨[], mid, some (stream.failureAt mid none)⟩ :=
  rounds_of_error (by rw [andThen, oneOf_of_notMem h])

theorem rounds_of_tighter (ht : stream.tokens[mid]? = some t) (hl : t.kind.level? = some inner)
    (h : level.rank < inner.rank) :
    ((oneOf level.operators).andThen operand).rounds stream mid =
      ⟨[], mid, some (stream.failureAt mid none)⟩ := by
  apply rounds_of_notMem
  rw [ht]
  rintro _ ⟨⟩
  rw [Level.mem_operators_iff, hl]
  rintro ⟨⟩
  exact Nat.lt_irrefl _ h

/-- The operators and operands behind a phrase of the level. The phrase grows with each round, and
the last one leaves its failure behind. -/
theorem rounds_find {before : List Token} {left : Expr}
    (h : ∀ mid', mid < mid' → Finds stream level.operand mid' (operand stream mid'))
    (hreads : stream.Reads start before mid) (hderives : Derives (.chain level) before left)
    (hhead : ∀ t inner, stream.tokens[mid]? = some t → t.kind.level? = some inner →
      inner.rank ≤ level.rank) :
    let more := ((oneOf level.operators).andThen operand).rounds stream mid
    mid ≤ more.offset ∧ Finds stream (.chain level) start
      (.ok ⟨more.value.foldl (fun left (operator, right) => .binary left operator right) left,
        more.offset, more.avoided⟩) := by
  generalize hleft : stream.left mid = measure
  induction measure using Nat.strongRecOn generalizing mid before left with
  | ind measure ih =>
    intro more
    by_cases hop : ∃ t, stream.tokens[mid]? = some t ∧ t.kind ∈ level.operators
    · obtain ⟨t, ht, hk⟩ := hop
      have hlevel := (Level.mem_operators_iff _ _).1 hk
      have hcheck (depth : Nat) : stream.check (.operand depth) start =
          stream.check (.operand depth) (mid + 1) := by
        rw [check_of_derives hreads hderives,
          check_of_next ht (Viability.judge_complete_of_level? hlevel depth)]
      have hround := @andThen_of_ok stream mid _ _ _ operand _ _ (oneOf_of_mem ht hk)
      have hoperand := h (mid + 1) (Nat.lt_succ_self mid)
      cases hr : operand stream (mid + 1) with
      | error failure =>
        rw [hr] at hoperand hround
        simp only [more, rounds_of_error hround]
        cases hoperand with
        | failed hi hfault =>
          exact ⟨Nat.le_refl mid, .blocked hreads.le ht hlevel (Nat.le_refl _) hi
            (hfault.behind fun depth => ⟨depth, hcheck depth⟩)⟩
      | ok success =>
        rw [hr] at hoperand hround
        cases hoperand with
        | @blocked tree stop i message u inner hstop hu hl hrank hlt hfault =>
          rw [Level.rank_operand] at hrank
          have hlast := @rounds_of_tighter _ _ _ _ operand _ hu hl hrank
          simp only [more, rounds_of_ok hround (left_lt ht hstop), hlast, Option.merge,
            max_failureAt_of_lt hlt, List.foldl]
          have hmid : mid ≤ stop := Nat.le_of_succ_le hstop
          exact ⟨hmid, .blocked (Nat.le_trans hreads.le hmid) hu hl (Nat.le_of_lt hrank) hlt
            (hfault.behind fun depth => ⟨depth, hcheck depth⟩)⟩
        | @phrase phrase tree stop avoided hphrase hoperand hfollow hstale =>
          obtain ⟨hle, hfinds⟩ := @ih _ (hleft ▸ left_lt ht hphrase.le) stop _ _
            (fun mid' hmid => h mid' (Nat.lt_trans hphrase.le hmid))
            (hreads.append ((Reads.single ht).append hphrase)) (.binary hderives hk hoperand)
            (fun u inner hu hl =>
              Nat.lt_succ_iff.1 (Nat.lt_of_lt_of_eq (hfollow u inner hu hl) level.rank_operand)) rfl
          simp only [more, rounds_of_ok hround (left_lt ht hphrase.le), List.foldl]
          exact ⟨Nat.le_trans (Nat.le_of_succ_le hphrase.le) hle, hfinds.merge_stale hstale hle⟩
    · have hnot : ∀ t, stream.tokens[mid]? = some t → t.kind ∉ level.operators :=
        fun t ht hk => hop ⟨t, ht, hk⟩
      simp only [more, rounds_of_notMem hnot]
      refine ⟨Nat.le_refl mid, .phrase hreads hderives (fun t inner ht hl => ?_)
        (.unexpected stream mid)⟩
      refine Nat.lt_of_le_of_ne (hhead t inner ht hl) fun heq => hnot t ht ?_
      rw [Level.mem_operators_iff, hl, Level.rank_inj heq]

theorem binaryLevel_of_ok {kinds : List Kind} {first : Success Expr}
    (h : operand stream start = .ok first) :
    let more := ((oneOf kinds).andThen operand).rounds stream first.offset
    binaryLevel operand kinds stream start =
      .ok ⟨more.value.foldl (fun left (operator, right) => .binary left operator right) first.value,
        more.offset, first.avoided.merge Failure.max more.avoided⟩ := by
  rw [binaryLevel, TokenParser.map, andThen, h]
  rfl

theorem binaryLevel_finds
    (h : ∀ mid, start ≤ mid → Finds stream level.operand mid (operand stream mid)) :
    Finds stream (.chain level) start (binaryLevel operand level.operators stream start) := by
  have hfirst := h start (Nat.le_refl start)
  cases hr : operand stream start with
  | error failure =>
    have heq : binaryLevel operand level.operators stream start = .error failure := by
      rw [binaryLevel, TokenParser.map, andThen, hr]
      rfl
    rw [hr] at hfirst
    rw [heq]
    cases hfirst with
    | failed hi hfault => exact .failed hi hfault
  | ok first =>
    rw [hr] at hfirst
    rw [binaryLevel_of_ok hr]
    cases hfirst with
    | @blocked tree stop i message t inner hstop ht hl hrank hlt hfault =>
      rw [Level.rank_operand] at hrank
      have hnone := @rounds_of_tighter _ _ _ _ operand _ ht hl hrank
      simp only [hnone, Option.merge, max_failureAt_of_lt hlt, List.foldl]
      exact .blocked hstop ht hl (Nat.le_of_lt hrank) hlt hfault
    | @phrase phrase tree stop avoided hreads hoperand hfollow hstale =>
      obtain ⟨hle, hfinds⟩ := rounds_find
        (fun mid hmid => h mid (Nat.le_trans hreads.le (Nat.le_of_lt hmid))) hreads
        (.operand hoperand) (fun u inner hu hl =>
          Nat.lt_succ_iff.1 (Nat.lt_of_lt_of_eq (hfollow u inner hu hl) level.rank_operand))
      exact hfinds.merge_stale hstale hle

end

/-- The levels in turn, from the tightest. Between parentheses there are fewer tokens left, which is
what the induction is on. -/
theorem expression_finds (stream : TokenStream) (start : Nat) :
    Finds stream (.chain .equality) start (expression stream start) := by
  generalize hleft : stream.left start = left
  induction left using Nat.strongRecOn generalizing start with
  | ind left ih =>
    rw [expression, recursive]
    generalize hinner : (fun (stream' : TokenStream) offset =>
      if stream'.left offset < stream.left start then recursive equality stream' offset
      else .error ⟨offset, ⟨stream'.endSpan, none, none⟩⟩) = inner
    have hgroup (mid : Nat) (t : Token) (hle : start ≤ mid) (ht : stream.tokens[mid]? = some t) :
        Finds stream (.chain .equality) (mid + 1) (inner stream (mid + 1)) := by
      have hlt : stream.left (mid + 1) < stream.left start :=
        Nat.lt_of_lt_of_le (left_lt ht (Nat.lt_succ_self mid)) (Nat.sub_le_sub_left hle _)
      have hrun : inner stream (mid + 1) = expression stream (mid + 1) := by
        rw [← hinner]
        exact if_pos hlt
      rw [hrun]
      exact ih _ (hleft ▸ hlt) (mid + 1) rfl
    have hunary (mid : Nat) (hle : start ≤ mid) :
        Finds stream .unary mid (unary inner stream mid) :=
      unary_finds fun mid' t hmid ht => hgroup mid' t (Nat.le_trans hle hmid) ht
    have hfactor (mid : Nat) (hle : start ≤ mid) :
        Finds stream (.chain .factor) mid (factor inner stream mid) :=
      @binaryLevel_finds _ _ .factor _ fun mid' hmid => hunary mid' (Nat.le_trans hle hmid)
    have hterm (mid : Nat) (hle : start ≤ mid) :
        Finds stream (.chain .term) mid (term inner stream mid) :=
      @binaryLevel_finds _ _ .term _ fun mid' hmid => hfactor mid' (Nat.le_trans hle hmid)
    have hcomparison (mid : Nat) (hle : start ≤ mid) :
        Finds stream (.chain .comparison) mid (comparison inner stream mid) :=
      @binaryLevel_finds _ _ .comparison _ fun mid' hmid => hterm mid' (Nat.le_trans hle hmid)
    exact @binaryLevel_finds _ _ .equality _ hcomparison

/-! The whole token list. -/

variable {tokens : List Token} {endLine : Nat} {endSpan : Span}

theorem report_failureAt (i : Nat) (message : Option Fault)
    (h : (tokens.getLast?.map fun t => (t.line, t.span)).getD (1, ⟨0, 0⟩) = (endLine, endSpan)) :
    ((TokenStream.mk tokens endSpan).failureAt i message).error.report endLine =
      (message.getD .expectedExpression).report (placeAt tokens i).1 (placeAt tokens i).2 := by
  unfold failureAt ParseError.report placeAt
  dsimp only
  cases tokens[i]? with
  | some t => rfl
  | none =>
    cases hlast : tokens.getLast? with
    | some t =>
      rw [hlast] at h
      cases h
      rfl
    | none =>
      rw [hlast] at h
      cases h
      rfl

/-- Parsing level by level is parsing with a stack: the same tree, or the same report. -/
theorem parse_eq (tokens : List Token) : parse tokens = Expr.parse tokens := by
  rcases hend : (tokens.getLast?.map fun t => (t.line, t.span)).getD (1, ⟨0, 0⟩) with
    ⟨endLine, endSpan⟩
  have herror {i : Nat} {message : Option Fault}
      (hcheck : (Viability.operand 0).firstFault 0 tokens =
        some (message.getD .expectedExpression, i))
      (heq : program ⟨tokens, endSpan⟩ 0 =
        .error ((TokenStream.mk tokens endSpan).failureAt i message)) :
      parse tokens = Expr.parse tokens := by
    rw [Expr.parse_of_firstFault hcheck, ← report_failureAt i message hend]
    simp only [parse, hend, heq]
  have hfinds := expression_finds ⟨tokens, endSpan⟩ 0
  rcases @andThen_expected _ _ _ [.eof] .expectedEnd hfinds (by decide) with
    ⟨phrase, tree, stop, hreads, hderives, ⟨t, avoided, ht, hmem, _, heq⟩ | ⟨hnot, heq⟩⟩ |
      ⟨i, message, _, hfault, heq⟩
  · have htokens : tokens = phrase ++ t :: tokens.drop (stop + 1) :=
      hreads.1.trans (congrArg _ (drop_eq_cons ht))
    have hparse : Expr.parse tokens = .ok tree := by
      rw [htokens]
      exact Expr.parse_of_derives hderives (List.mem_singleton.1 hmem)
    simp only [hparse, parse, hend, program, TokenParser.map, heq, Except.map]
  · exact @herror _ (some .expectedEnd) (check_of_closing hreads hderives rfl hnot)
      (by rw [program, TokenParser.map, heq]; rfl)
  · exact herror (hfault 0) (by rw [program, TokenParser.map, heq]; rfl)

end Reckoner.Descent
