import Reckoner.Expr.Grammar
import Reckoner.Proofs.Expr.Alignment
import Reckoner.Proofs.Expr.Frames

/-!
Where parsing stops. Of a parser state, the faults depend on nothing but the number of open groups,
so the check with a counter finds the same fault at the same token. It is the first token that no
expression can have there: what comes before it can be completed, and nothing helps behind it.
-/
namespace Reckoner

def Frame.depth (stack : List Frame) : Nat :=
  stack.countP Frame.isGroup

namespace Frame

@[simp] theorem depth_unary (operator : Token) (stack : List Frame) :
    depth (.unary operator :: stack) = depth stack := rfl

@[simp] theorem depth_binary (left : Expr) (operator : Token) (level : Level)
    (stack : List Frame) : depth (.binary left operator level :: stack) = depth stack := rfl

@[simp] theorem depth_group (stack : List Frame) :
    depth (.group :: stack) = depth stack + 1 :=
  List.countP_cons_of_pos rfl

theorem depth_reduce (rank : Nat) (stack : List Frame) (e : Expr) :
    depth (reduce rank stack e).1 = depth stack := by
  fun_induction reduce rank stack e with
  | case1 operator stack e ih => simpa using ih
  | case2 left operator level stack e hr ih => simpa using ih
  | case3 left operator level stack e hr => rfl
  | case4 stack e hu hb => rfl

end Frame

namespace ParseState

def viability : ParseState → Viability
  | operand stack => .operand (Frame.depth stack)
  | complete stack _ => .complete (Frame.depth stack)

theorem fault_viability (state : ParseState) : state.viability.fault = state.fault := by
  cases state with
  | operand stack => rfl
  | complete stack e =>
    cases hd : Frame.depth stack with
    | zero =>
      have hnone := List.countP_eq_zero.1 hd
      have hany : stack.any Frame.isGroup = false := by simpa using hnone
      simp [viability, hd, Viability.fault, fault, hany]
    | succ depth =>
      have hpos : 0 < stack.countP Frame.isGroup := by
        change 0 < Frame.depth stack
        omega
      have hany : stack.any Frame.isGroup = true := by
        simpa using List.countP_pos_iff.1 hpos
      simp [viability, hd, Viability.fault, fault, hany]

end ParseState

def ParseStep.verdict : ParseStep → Viability.Verdict
  | next state => .next state.viability
  | done _ => .accept
  | reject => .reject

namespace Viability

/-! What may stand between two operands are the operators that have a level. -/

theorem judge_complete_of_level? {t : Token} {level : Level} (h : t.kind.level? = some level)
    (depth : Nat) : (complete depth).judge t = .next (operand depth) := by
  cases hk : t.kind <;> simp [hk, Kind.level?] at h <;> simp [judge, hk]

theorem judge_complete_of_level?_eq_none {t : Token} (h : t.kind.level? = none) (depth : Nat) :
    (complete depth).judge t =
      match t.kind, depth with
      | .rightParen, depth + 1 => .next (complete depth)
      | .eof, 0 => .accept
      | _, _ => .reject := by
  cases hk : t.kind <;> simp [hk, Kind.level?] at h <;> cases depth <;> simp [judge, hk]

end Viability

namespace ParseState

theorem judge_operand (stack : List Frame) (t : Token) :
    (Viability.operand (Frame.depth stack)).judge t = (stepOperand stack t).verdict := by
  cases hk : t.kind with
  | keyword word =>
    cases word <;>
      simp [Viability.judge, stepOperand, hk, Kind.isUnary, Token.operand?, ParseStep.verdict,
        viability]
  | number | string =>
    cases hl : t.literal <;>
      simp [Viability.judge, stepOperand, hk, hl, Kind.isUnary, Token.operand?,
        ParseStep.verdict, viability]
  | _ =>
    simp [Viability.judge, stepOperand, hk, Kind.isUnary, Token.operand?, ParseStep.verdict,
      viability]

theorem judge_complete (stack : List Frame) (e : Expr) (t : Token) :
    (Viability.complete (Frame.depth stack)).judge t = (stepComplete stack e t).verdict := by
  cases hl : t.kind.level? with
  | some level =>
    rw [Viability.judge_complete_of_level? hl]
    simp [stepComplete, hl, ParseStep.verdict, viability, Frame.depth_reduce]
  | none =>
    -- Nothing is left open but groups, so the counter decides between the two cases.
    rw [Viability.judge_complete_of_level?_eq_none hl]
    have hdepth := Frame.depth_reduce 0 stack e
    rcases hr : Frame.reduce 0 stack e with ⟨closed, inner⟩
    rcases Frame.reduce_zero stack e with hnil | ⟨outer, hgroup⟩
    · simp only [hr] at hnil hdepth
      subst hnil
      have hzero : Frame.depth stack = 0 := hdepth.symm
      by_cases he : t.kind = .eof
      · simp [stepComplete, hr, he, hzero, Kind.level?, ParseStep.verdict]
      · simp [stepComplete, hr, hl, he, hzero, ParseStep.verdict]
    · simp only [hr] at hgroup hdepth
      subst hgroup
      by_cases hp : t.kind = .rightParen
      · simp [stepComplete, hr, hp, ← hdepth, Kind.level?, ParseStep.verdict, viability]
      · simp [stepComplete, hr, hl, hp, ← hdepth, ParseStep.verdict]

theorem judge_viability (state : ParseState) (t : Token) :
    state.viability.judge t = (state.step t).verdict := by
  cases state with
  | operand stack => exact judge_operand stack t
  | complete stack e => exact judge_complete stack e t

theorem run_eq_firstFault (state : ParseState) (before tokens : List Token) :
    match state.viability.firstFault before.length tokens with
    | none =>
      ∃ tree, state.run (placeAt before before.length).1 (placeAt before before.length).2 tokens =
        .ok tree
    | some (fault, i) =>
      state.run (placeAt before before.length).1 (placeAt before before.length).2 tokens =
        .error (fault.report (placeAt (before ++ tokens) i).1
          (placeAt (before ++ tokens) i).2) := by
  induction tokens generalizing state before with
  | nil => simp [Viability.firstFault, run, fault_viability]
  | cons t tokens ih =>
    have hplace : placeAt (before ++ [t]) (before ++ [t]).length = (t.line, t.span) := by
      simp [placeAt]
    rw [Viability.firstFault, judge_viability, run]
    cases hs : state.step t with
    | next state =>
      have hnext := ih state (before ++ [t])
      rw [hplace] at hnext
      simpa [ParseStep.verdict] using hnext
    | done tree => exact ⟨tree, rfl⟩
    | reject => simp [ParseStep.verdict, fault_viability, placeAt]

end ParseState

namespace Viability

def closing : Nat → List Token
  | 0 => [⟨.eof, "", none, 1, ⟨0, 0⟩⟩]
  | depth + 1 => ⟨.rightParen, ")", none, 1, ⟨0, 0⟩⟩ :: closing depth

def completion : Viability → List Token
  | operand depth => ⟨.keyword .nil_, "nil", none, 1, ⟨0, 0⟩⟩ :: closing depth
  | complete depth => closing depth

theorem firstFault_closing (depth index : Nat) :
    firstFault (complete depth) index (closing depth) = none := by
  induction depth generalizing index with
  | zero => rfl
  | succ depth ih => exact ih (index + 1)

theorem firstFault_completion (state : Viability) (index : Nat) :
    state.firstFault index state.completion = none := by
  cases state with
  | operand depth => exact firstFault_closing depth (index + 1)
  | complete depth => exact firstFault_closing depth index

/-- The tokens before the first fault can be completed, and a fault at a token stands whatever
comes behind the token. -/
theorem firstFault_viable {state : Viability} {index i : Nat} {tokens : List Token} {fault : Fault}
    (h : state.firstFault index tokens = some (fault, i)) :
    ∃ read, i = index + read ∧ read ≤ tokens.length ∧
      (∃ rest, state.firstFault index (tokens.take read ++ rest) = none) ∧
      (read < tokens.length → ∀ rest,
        state.firstFault index (tokens.take (read + 1) ++ rest) = some (fault, i)) := by
  induction tokens generalizing state index with
  | nil =>
    simp only [firstFault, Option.some.injEq, Prod.mk.injEq] at h
    exact ⟨0, by omega, Nat.le_refl _, ⟨_, state.firstFault_completion index⟩,
      fun hlt => absurd hlt (Nat.lt_irrefl _)⟩
  | cons t tokens ih =>
    rw [firstFault] at h
    cases hj : state.judge t with
    | next next =>
      rw [hj] at h
      obtain ⟨read, hi, hle, ⟨rest, hrest⟩, hstays⟩ := ih h
      refine ⟨read + 1, by omega, Nat.succ_le_succ hle, ⟨rest, ?_⟩, ?_⟩
      · simpa [firstFault, hj] using hrest
      · intro hlt rest
        simpa [firstFault, hj] using hstays (Nat.lt_of_succ_lt_succ hlt) rest
    | accept => simp [hj] at h
    | reject =>
      simp only [hj, Option.some.injEq, Prod.mk.injEq] at h
      refine ⟨0, by omega, Nat.zero_le _, ⟨_, state.firstFault_completion index⟩, ?_⟩
      intro _ rest
      simp [firstFault, hj, h]

theorem judge_eof_ne_next (state next : Viability) {t : Token} (hk : t.kind = .eof) :
    state.judge t ≠ .next next := by
  cases state with
  | operand depth => simp [judge, hk]
  | complete depth => cases depth <;> simp [judge, hk]

theorem firstFault_lt {state : Viability} {index i : Nat} {tokens : List Token} {fault : Fault}
    (heof : ∃ t ∈ tokens, t.kind = .eof)
    (h : state.firstFault index tokens = some (fault, i)) : i < index + tokens.length := by
  induction tokens generalizing state index with
  | nil => simp at heof
  | cons t tokens ih =>
    rw [firstFault] at h
    cases hj : state.judge t with
    | next next =>
      rw [hj] at h
      have hk : t.kind ≠ .eof := fun hk => judge_eof_ne_next state next hk hj
      have hlt := ih (by simpa [hk] using heof) h
      rw [List.length_cons]
      omega
    | accept => simp [hj] at h
    | reject =>
      simp only [hj, Option.some.injEq, Prod.mk.injEq] at h
      rw [List.length_cons]
      omega

theorem judge_congr {t u : Token} (h : t.role = u.role) (state : Viability) :
    state.judge t = state.judge u := by
  obtain ⟨hkind, hoperand⟩ := Prod.mk.inj h
  cases state with
  | complete depth => simp only [judge, hkind]
  | operand depth =>
    cases hk : u.kind with
    | number | string =>
      have hliteral : t.literal = u.literal := by simpa [Token.operand?, hkind, hk] using hoperand
      simp only [judge, hkind, hk, hliteral]
    | keyword word => cases word <;> simp only [judge, hkind, hk]
    | _ => simp only [judge, hkind, hk]

theorem firstFault_congr {tokens tokens' : List Token}
    (h : List.Forall₂ (fun t u => t.role = u.role) tokens tokens') (state : Viability)
    (index : Nat) : state.firstFault index tokens = state.firstFault index tokens' := by
  induction h generalizing state index with
  | nil => rfl
  | @cons t u tokens tokens' ht _ ih =>
    rw [firstFault, firstFault, judge_congr ht]
    cases state.judge u with
    | next next => exact ih next (index + 1)
    | accept => rfl
    | reject => rfl

theorem firstFault_map {f : Token → Token} (hf : ∀ t, (f t).role = t.role) (state : Viability)
    (index : Nat) (tokens : List Token) :
    state.firstFault index (tokens.map f) = state.firstFault index tokens := by
  apply firstFault_congr
  rw [List.forall₂_map_left_iff]
  exact List.forall₂_same.2 fun t _ => hf t

end Viability

namespace Expr

theorem parse_eq_firstFault (tokens : List Token) :
    match (Viability.operand 0).firstFault 0 tokens with
    | none => ∃ tree, Expr.parse tokens = .ok tree
    | some (fault, i) =>
      Expr.parse tokens = .error (fault.report (placeAt tokens i).1 (placeAt tokens i).2) :=
  (ParseState.operand []).run_eq_firstFault [] tokens

theorem exists_parse_of_firstFault {tokens : List Token}
    (h : (Viability.operand 0).firstFault 0 tokens = none) :
    ∃ tree, Expr.parse tokens = .ok tree := by
  have := parse_eq_firstFault tokens
  rwa [h] at this

theorem parse_of_firstFault {tokens : List Token} {fault : Fault} {i : Nat}
    (h : (Viability.operand 0).firstFault 0 tokens = some (fault, i)) :
    Expr.parse tokens = .error (fault.report (placeAt tokens i).1 (placeAt tokens i).2) := by
  have := parse_eq_firstFault tokens
  rwa [h] at this

theorem exists_firstFault_of_parse {tokens : List Token} {d : Diagnostic}
    (h : Expr.parse tokens = .error d) :
    ∃ fault i, (Viability.operand 0).firstFault 0 tokens = some (fault, i) ∧
      d = fault.report (placeAt tokens i).1 (placeAt tokens i).2 := by
  rcases hf : (Viability.operand 0).firstFault 0 tokens with _ | ⟨fault, i⟩
  · obtain ⟨tree, htree⟩ := exists_parse_of_firstFault hf
    cases htree.symm.trans h
  · have heq := (parse_of_firstFault hf).symm.trans h
    exact ⟨fault, i, rfl, (Except.error.inj heq).symm⟩

theorem placeAt_of_getElem? {tokens : List Token} {i : Nat} {t : Token} (h : tokens[i]? = some t) :
    placeAt tokens i = (t.line, t.span) := by
  simp [placeAt, h]

theorem exists_offending {tokens : List Token} {d : Diagnostic}
    (heof : ∃ t ∈ tokens, t.kind = .eof) (h : Expr.parse tokens = .error d) :
    ∃ fault i t, (Viability.operand 0).firstFault 0 tokens = some (fault, i) ∧
      tokens[i]? = some t ∧ d = fault.report t.line t.span := by
  obtain ⟨fault, i, hf, rfl⟩ := exists_firstFault_of_parse h
  have hlt := Viability.firstFault_lt heof hf
  rw [Nat.zero_add] at hlt
  have hi := List.getElem?_eq_getElem hlt
  refine ⟨fault, i, _, hf, hi, ?_⟩
  rw [placeAt_of_getElem? hi]

theorem placeAt_take_append {tokens : List Token} {i : Nat} (h : i < tokens.length)
    (rest : List Token) : placeAt (tokens.take (i + 1) ++ rest) i = placeAt tokens i := by
  have hi : (tokens.take (i + 1) ++ rest)[i]? = tokens[i]? := by
    rw [List.getElem?_append_left (by rw [List.length_take]; omega),
      List.getElem?_take_of_lt (Nat.lt_succ_self i)]
  simp [placeAt, hi, List.getElem?_eq_getElem h]

/-- Parsing fails exactly where the check does: with one report, its location empty, at the place
of the first token that may not come next. The tokens before that one begin some expression, and no
list that goes on with it is parsed, or reported in another way. -/
theorem parse_eq_error_iff_firstFault (tokens : List Token) :
    ((∃ tree, Expr.parse tokens = .ok tree) ↔
      (Viability.operand 0).firstFault 0 tokens = none) ∧
    (∀ fault i, (Viability.operand 0).firstFault 0 tokens = some (fault, i) →
      Expr.parse tokens = .error ⟨(placeAt tokens i).1, "", fault, (placeAt tokens i).2⟩ ∧
      i ≤ tokens.length ∧
      (∃ rest tree, Expr.parse (tokens.take i ++ rest) = .ok tree) ∧
      (i < tokens.length → ∀ rest,
        Expr.parse (tokens.take (i + 1) ++ rest) = Expr.parse tokens)) ∧
    (∀ depth, (Viability.operand depth).fault.message = "Expect expression." ∧
      (Viability.complete (depth + 1)).fault.message = "Expect ')' after expression.") ∧
    (Viability.complete 0).fault.message = "Expect end of expression." := by
  refine ⟨⟨?_, exists_parse_of_firstFault⟩, ?_, fun _ => ⟨rfl, rfl⟩, rfl⟩
  · rintro ⟨tree, hok⟩
    rcases hf : (Viability.operand 0).firstFault 0 tokens with _ | ⟨fault, i⟩
    · rfl
    · rw [parse_of_firstFault hf] at hok
      cases hok
  · intro fault i hf
    obtain ⟨read, hi, hle, ⟨rest, hrest⟩, hstays⟩ := Viability.firstFault_viable hf
    obtain rfl : i = read := by omega
    obtain ⟨tree, htree⟩ := exists_parse_of_firstFault hrest
    refine ⟨parse_of_firstFault hf, hle, ⟨rest, tree, htree⟩, ?_⟩
    intro hlt rest
    rw [parse_of_firstFault (hstays hlt rest), parse_of_firstFault hf,
      placeAt_take_append hlt rest]

end Expr
end Reckoner
