import Reckoner.Proofs.Number.Patterns
import Reckoner.Proofs.Program.RoundTrip
import Reckoner.Proofs.Token.Spacing

/-!
Signs in front of a literal. However many there are, and however close together, they are separate
tokens and apply from the right: a minus to a number only, so not in front of a bang.
-/
namespace Reckoner

theorem Number.neg_neg {x : Float} (h : ¬ x.isNaN) : -(-x) = x := by
  obtain ⟨hs, hr⟩ := sign_rank_neg h
  have hneg : ¬ (-x).isNaN := by
    rwa [isNaN_iff, hr, ← isNaN_iff]
  obtain ⟨hs', hr'⟩ := sign_rank_neg hneg
  refine eq_iff_sign_rank.2 ⟨?_, hr'.trans hr⟩
  rw [hs', hs]
  cases sign x <;> rfl

/-! Evaluation. -/

/-- The sign in this place is a minus whose operand is not a number: the literal is none, or some
bang comes in between. -/
def SignFails (signs : List Kind) (v : Value) (k : Nat) : Prop :=
  signs[k]? = some .minus ∧ ((∀ x, v ≠ .number x) ∨ ∃ j, k < j ∧ signs[j]? = some .bang)

section
variable {kind : Kind} {signs : List Kind} {v : Value} {k : Nat}

theorem signFails_cons_zero :
    SignFails (kind :: signs) v 0 ↔
      kind = .minus ∧ ((∀ x, v ≠ .number x) ∨ .bang ∈ signs) := by
  have hbang : (∃ j, 0 < j ∧ (kind :: signs)[j]? = some .bang) ↔ .bang ∈ signs := by
    rw [List.mem_iff_getElem?]
    constructor
    · rintro ⟨_ | j, hpos, hj⟩
      · cases hpos
      · exact ⟨j, hj⟩
    · rintro ⟨j, hj⟩
      exact ⟨j + 1, Nat.succ_pos j, hj⟩
  simp [SignFails, hbang]

theorem signFails_cons_succ : SignFails (kind :: signs) v (k + 1) ↔ SignFails signs v k := by
  have hbang : (∃ j, k + 1 < j ∧ (kind :: signs)[j]? = some .bang) ↔
      ∃ j, k < j ∧ signs[j]? = some .bang := by
    constructor
    · rintro ⟨_ | j, hlt, hj⟩
      · cases hlt
      · exact ⟨j, Nat.lt_of_succ_lt_succ hlt, hj⟩
    · rintro ⟨j, hlt, hj⟩
      exact ⟨j + 1, Nat.succ_lt_succ hlt, hj⟩
  simp [SignFails, hbang]

end

namespace Expr

def signed (signs : List Token) (v : Value) : Expr :=
  signs.foldr unary (literal v)

theorem eval_signed_cons (t : Token) (signs : List Token) (v : Value) :
    (signed (t :: signs) v).eval = (signed signs v).eval >>= Value.applyUnary t :=
  rfl

section
variable {t : Token} {w : Value}

theorem applyUnary_bang (hk : t.kind = .bang) : Value.applyUnary t w = .ok (.bool (!w.truthy)) := by
  unfold Value.applyUnary
  rw [hk]

theorem applyUnary_minus {x : Float} (hk : t.kind = .minus) :
    Value.applyUnary t (.number x) = .ok (.number (-x)) := by
  unfold Value.applyUnary
  rw [hk]

theorem applyUnary_minus_of_ne (hk : t.kind = .minus) (hw : ∀ x, w ≠ .number x) :
    Value.applyUnary t w = .error ⟨.operandNotNumber, t⟩ := by
  unfold Value.applyUnary
  rw [hk]
  cases w with
  | number x => exact absurd rfl (hw x)
  | nil | bool | str => rfl

end

section
variable {signs : List Token} {v : Value}
  (hunary : ∀ t ∈ signs, t.kind.isUnary) (hnan : ∀ x, v = .number x → ¬ x.isNaN)
include hunary

include hnan in
theorem eval_signed_of_no_bang (hsound : ∀ k, ¬ SignFails (signs.map Token.kind) v k)
    (hbang : .bang ∉ signs.map Token.kind) :
    (signs.length % 2 = 0 ∧ (signed signs v).eval = .ok v) ∨
      signs.length % 2 = 1 ∧
        ∃ x, v = .number x ∧ (signed signs v).eval = .ok (.number (-x)) := by
  induction signs with
  | nil => exact .inl ⟨rfl, rfl⟩
  | cons t signs ih =>
    obtain ⟨ht, hunary⟩ := List.forall_mem_cons.1 hunary
    rw [List.map_cons] at hsound hbang
    obtain ⟨hfirst, hbang⟩ := not_or.1 (mt List.mem_cons.2 hbang)
    have hk : t.kind = .minus := (Kind.isUnary_iff.1 ht).resolve_left (Ne.symm hfirst)
    obtain ⟨x, rfl⟩ : ∃ x, v = .number x := by
      by_contra hv
      exact hsound 0 (signFails_cons_zero.2 ⟨hk, .inl fun x hx => hv ⟨x, hx⟩⟩)
    rw [eval_signed_cons, List.length_cons]
    rcases ih hunary (fun k hfails => hsound (k + 1) (signFails_cons_succ.2 hfails)) hbang with
      ⟨hlength, heval⟩ | ⟨hlength, y, hy, heval⟩
    · refine .inr ⟨by omega, x, rfl, ?_⟩
      rw [heval]
      exact applyUnary_minus hk
    · obtain rfl := Value.number.inj hy
      refine .inl ⟨by omega, ?_⟩
      rw [heval]
      refine (applyUnary_minus hk).trans ?_
      rw [Number.neg_neg (hnan x rfl)]

include hnan in
theorem eval_signed_of_bang (hsound : ∀ k, ¬ SignFails (signs.map Token.kind) v k)
    (hbang : .bang ∈ signs.map Token.kind) :
    (signed signs v).eval =
      .ok (.bool (v.truthy ^^ decide ((signs.map Token.kind).count .bang % 2 = 1))) := by
  induction signs with
  | nil => cases hbang
  | cons t signs ih =>
    obtain ⟨ht, hunary⟩ := List.forall_mem_cons.1 hunary
    rw [List.map_cons] at hsound
    have hrest : ∀ k, ¬ SignFails (signs.map Token.kind) v k :=
      fun k hfails => hsound (k + 1) (signFails_cons_succ.2 hfails)
    have hk : t.kind = .bang := by
      refine (Kind.isUnary_iff.1 ht).resolve_right fun hk => ?_
      have hmem : .bang ∈ signs.map Token.kind := by simpa [hk] using hbang
      exact hsound 0 (signFails_cons_zero.2 ⟨hk, .inr hmem⟩)
    rw [eval_signed_cons, List.map_cons, hk, List.count_cons_self]
    by_cases hmem : .bang ∈ signs.map Token.kind
    · rw [ih hunary hrest hmem]
      refine (applyUnary_bang hk).trans ?_
      have hparity (n : Nat) : decide ((n + 1) % 2 = 1) = !decide (n % 2 = 1) := by
        rw [← decide_not, decide_eq_decide]
        omega
      rw [hparity, Value.truthy, Bool.xor_not]
    · rw [List.count_eq_zero_of_not_mem hmem]
      have hnegated {w : Value} (heval : (signed signs v).eval = .ok w)
          (hw : w.truthy = v.truthy) :
          (signed signs v).eval >>= Value.applyUnary t = .ok (.bool (v.truthy ^^ true)) := by
        rw [heval, Bool.xor_true, ← hw]
        exact applyUnary_bang hk
      rcases eval_signed_of_no_bang hunary hnan hrest hmem with
        ⟨_, heval⟩ | ⟨_, x, rfl, heval⟩
      · exact hnegated heval rfl
      · exact hnegated heval rfl

include hnan in
/-- The innermost sign that fails is the one to blame: those behind it apply. -/
theorem eval_signed_of_signFails (hfails : ∃ k, SignFails (signs.map Token.kind) v k) :
    ∃ k t, SignFails (signs.map Token.kind) v k ∧
      (∀ j, SignFails (signs.map Token.kind) v j → j ≤ k) ∧ signs[k]? = some t ∧
      (signed signs v).eval = .error ⟨.operandNotNumber, t⟩ := by
  induction signs with
  | nil =>
    obtain ⟨k, hk, _⟩ := hfails
    cases hk
  | cons t signs ih =>
    obtain ⟨ht, hunary⟩ := List.forall_mem_cons.1 hunary
    rw [List.map_cons, eval_signed_cons]
    by_cases hrest : ∃ k, SignFails (signs.map Token.kind) v k
    · obtain ⟨k, blamed, hhere, hlast, hget, heval⟩ := ih hunary hrest
      refine ⟨k + 1, blamed, signFails_cons_succ.2 hhere, ?_, hget, by rw [heval]; rfl⟩
      rintro (_ | j) hj
      · exact Nat.zero_le _
      · exact Nat.succ_le_succ (hlast j (signFails_cons_succ.1 hj))
    · have hrest := not_exists.1 hrest
      obtain ⟨k, hk⟩ := hfails
      cases k with
      | succ k => exact absurd (signFails_cons_succ.1 hk) (hrest k)
      | zero =>
        refine ⟨0, t, hk, ?_, rfl, ?_⟩
        · rintro (_ | j) hj
          · exact Nat.le_refl _
          · exact absurd (signFails_cons_succ.1 hj) (hrest j)
        · obtain ⟨hminus, hoperand⟩ := signFails_cons_zero.1 hk
          by_cases hmem : .bang ∈ signs.map Token.kind
          · rw [eval_signed_of_bang hunary hnan hrest hmem]
            exact applyUnary_minus_of_ne hminus fun x => nofun
          · have hv := hoperand.resolve_right hmem
            rcases eval_signed_of_no_bang hunary hnan hrest hmem with
              ⟨_, heval⟩ | ⟨_, x, hx, _⟩
            · rw [heval]
              exact applyUnary_minus_of_ne hminus hv
            · exact absurd hx (hv x)

end
end Expr

/-! Scanning. -/

theorem Token.Lexical.head_ne {t : Token} (h : t.Lexical)
    (ht : t.kind.isUnary ∨ t.operand?.isSome) :
    ∀ d ∈ t.lexeme.toList.head?, d ≠ '=' ∧ d ≠ '/' := by
  rcases ht with hk | hv
  · have hplain := h.plain_of_isOperator (Kind.isOperator_of_unary (Kind.isUnary_iff.1 hk))
    rcases hplain.lexeme_of_isUnary hk with hx | hx <;> rw [hx] <;> rintro d ⟨⟩ <;> decide
  · obtain ⟨v, hv⟩ := Option.isSome_iff_exists.1 hv
    apply Lexes.head_ne h
    rcases operand?_eq_some_iff.1 hv with ⟨hk, _⟩ | ⟨hk, _⟩ | ⟨hk, _⟩ | ⟨hk | hk, _⟩
    · exact .inr ⟨_, hk⟩
    · exact .inr ⟨_, hk⟩
    · exact .inr ⟨_, hk⟩
    · exact .inl (by rw [hk]; rfl)
    · exact .inl (by rw [hk]; rfl)

section
variable {signs : List Spaced} {operand : Spaced} {v : Value}
  (hlexical : ∀ t ∈ signs ++ [operand], t.token.Lexical ∧ IsGap t.gap)
  (hunary : ∀ t ∈ signs, t.token.kind.isUnary)

theorem Spaced.exists_tokens (signs : List Spaced) (operand : Spaced) (before : List Char) :
    ∃ operators t last, tokens before (signs ++ [operand]) = operators ++ [t] ++ [last] ∧
      operators.map Token.kind = signs.map (·.token.kind) ∧
      t.operand? = operand.token.operand? ∧ last.kind = .eof := by
  induction signs generalizing before with
  | nil => exact ⟨[], _, _, rfl, rfl, rfl, rfl⟩
  | cons sign signs ih =>
    obtain ⟨operators, t, last, htokens, hkinds, ht, hlast⟩ :=
      ih (before ++ sign.token.lexeme.toList ++ sign.gap)
    rw [List.cons_append, tokens, htokens]
    exact ⟨_ :: operators, t, last, rfl, congrArg (sign.token.kind :: ·) hkinds, ht, hlast⟩

include hlexical hunary

theorem Spaced.head_text_signs (hv : operand.token.operand? = some v) :
    ∀ d ∈ (text (signs ++ [operand])).head?, d ≠ '=' ∧ d ≠ '/' := by
  have hfirst {t : Spaced} {rest : List Spaced} (ht : t.token.Lexical)
      (hk : t.token.kind.isUnary ∨ t.token.operand?.isSome) :
      ∀ d ∈ (text (t :: rest)).head?, d ≠ '=' ∧ d ≠ '/' := by
    rw [text, List.head?_append_of_ne_nil _ (Lexes.ne_nil ht)]
    exact ht.head_ne hk
  cases signs with
  | nil => exact hfirst (hlexical operand (by simp)).1 (.inr (by simp [hv]))
  | cons t signs => exact hfirst (hlexical t (by simp)).1 (.inl (hunary t (by simp)))

theorem Tokenises.of_signs (hv : operand.token.operand? = some v) (before : List Char) :
    Tokenises before (Spaced.text (signs ++ [operand]))
      (Spaced.tokens before (signs ++ [operand])) [] := by
  induction signs generalizing before with
  | nil =>
    exact .spaced (fun t ht => (hlexical t ht).1) (fun t ht => (hlexical t ht).2) (by simp) before
  | cons t signs ih =>
    obtain ⟨⟨ht, hgap⟩, hlexical⟩ := List.forall_mem_cons.1 hlexical
    obtain ⟨hk, hunary⟩ := List.forall_mem_cons.1 hunary
    refine .spaced_cons ?_ hgap.1 (ih hlexical hunary _)
    have hplain := ht.plain_of_isOperator (Kind.isOperator_of_unary (Kind.isUnary_iff.1 hk))
    rw [hplain.2]
    refine .symbol (by rw [String.ofList_toList]; exact hplain.1) ?_ fun d hd => ?_
    · rintro word hword
      rw [hword] at hk
      cases hk
    · cases hempty : t.gap with
      | nil =>
        rw [hempty] at hd
        exact Spaced.head_text_signs hlexical hunary hv d hd
      | cons c gap =>
        rw [hempty] at hd hgap
        obtain rfl := Option.some.inj hd
        have hblank := hgap.2 c rfl
        constructor <;> rintro rfl <;> cases hblank

end

theorem Derives.of_signs {operators : List Token} {t : Token} {v : Value}
    (hunary : ∀ operator ∈ operators, operator.kind.isUnary) (hv : t.operand? = some v) :
    Derives .unary (operators ++ [t]) (Expr.signed operators v) := by
  induction operators with
  | nil => exact .primary (.ofOperand? hv)
  | cons operator operators ih =>
    obtain ⟨hk, hunary⟩ := List.forall_mem_cons.1 hunary
    exact .unary (Kind.isUnary_iff.1 hk) (ih hunary)

theorem Token.Lexical.not_isNaN {t : Token} {x : Float} (h : t.Lexical)
    (hv : t.operand? = some (.number x)) : ¬ x.isNaN := by
  have hs := ((Derives.ofOperand? hv).wellFormed (by simpa using h)).2.2 _ List.mem_cons_self
  exact Number.not_isNaN_of_le_infinity hs

namespace Program

section
variable {signs : List Spaced} {operand : Spaced} {v : Value}
  (hlexical : ∀ t ∈ signs ++ [operand], t.token.Lexical ∧ IsGap t.gap)
  (hunary : ∀ t ∈ signs, t.token.kind.isUnary) (hv : operand.token.operand? = some v)
include hlexical hunary hv

theorem scan_signs :
    scan (String.ofList (Spaced.text (signs ++ [operand]))) =
      ⟨Spaced.tokens [] (signs ++ [operand]), []⟩ := by
  apply scan_of_tokenises
  rw [String.toList_ofList]
  exact .of_signs hlexical hunary hv []

theorem exists_run_signs :
    ∃ operators rest, Spaced.tokens [] (signs ++ [operand]) = operators ++ rest ∧
      operators.map Token.kind = signs.map (·.token.kind) ∧
      (∀ operator ∈ operators, operator.kind.isUnary) ∧
      run (String.ofList (Spaced.text (signs ++ [operand]))) =
        (Expr.signed operators v).eval.mapError .runtime := by
  obtain ⟨operators, t, last, htokens, hkinds, ht, hlast⟩ := Spaced.exists_tokens signs operand []
  have hoperators : ∀ operator ∈ operators, operator.kind.isUnary := by
    have hmap : ∀ kind ∈ operators.map Token.kind, kind.isUnary := by
      simpa [hkinds] using hunary
    exact List.forall_mem_map.1 hmap
  refine ⟨operators, [t] ++ [last], by rw [htokens, List.append_assoc], hkinds, hoperators, ?_⟩
  apply run_of_parse
  rw [parse_eq_ok_iff, scan_signs hlexical hunary hv, htokens]
  have hd := Derives.of_signs hoperators (ht.trans hv)
  exact ⟨rfl, Expr.parse_of_derives (hd.toChain (Nat.zero_le _)) hlast⟩

end

/-- Signs in front of a literal, with gaps between them or without. The text is scanned into them
and the literal. If one of them is a minus whose operand is not a number, the last such minus is
blamed. Otherwise, without a bang, the value is the literal's, with the sign bit flipped if there is
an odd number of them; with a bang it is the literal's truth, negated if the number of bangs is
odd. -/
theorem run_signs {signs : List Spaced} {operand : Spaced} {v : Value}
    (hlexical : ∀ t ∈ signs ++ [operand], t.token.Lexical ∧ IsGap t.gap)
    (hunary : ∀ t ∈ signs, t.token.kind.isUnary) (hv : operand.token.operand? = some v) :
    let source := String.ofList (Spaced.text (signs ++ [operand]))
    let tokens := Spaced.tokens [] (signs ++ [operand])
    let kinds := signs.map (·.token.kind)
    scan source = ⟨tokens, []⟩ ∧
      ((∃ k, SignFails kinds v k) →
        ∃ k t, SignFails kinds v k ∧ (∀ j, SignFails kinds v j → j ≤ k) ∧ tokens[k]? = some t ∧
          run source = .error (.runtime ⟨.operandNotNumber, t⟩) ∧
          RuntimeError.message ⟨.operandNotNumber, t⟩ = "Operand must be a number.") ∧
      ((∀ k, ¬ SignFails kinds v k) →
        (.bang ∉ kinds →
          (signs.length % 2 = 0 → run source = .ok v) ∧
          (signs.length % 2 = 1 → ∃ x y, v = .number x ∧
            y.toBits = x.toBits ^^^ 0x8000000000000000 ∧ run source = .ok (.number y))) ∧
        (.bang ∈ kinds →
          run source = .ok (.bool (v.truthy ^^ decide (kinds.count .bang % 2 = 1))))) := by
  intro source tokens kinds
  have hscan : scan source = ⟨tokens, []⟩ := scan_signs hlexical hunary hv
  have hnan (x : Float) (hx : v = .number x) : ¬ x.isNaN := by
    subst hx
    exact (hlexical operand (by simp)).1.not_isNaN hv
  obtain ⟨operators, rest, htokens, hkinds, hoperators, hrun⟩ :=
    exists_run_signs hlexical hunary hv
  replace htokens : tokens = operators ++ rest := htokens
  replace hkinds : operators.map Token.kind = kinds := hkinds
  replace hrun : run source = (Expr.signed operators v).eval.mapError .runtime := hrun
  have hlength : operators.length = signs.length := by
    rw [← List.length_map Token.kind, hkinds, List.length_map]
  rw [← hlength, ← hkinds, hrun]
  refine ⟨hscan, fun hfails => ?_, fun hsound => ⟨fun hbang => ?_, fun hbang => ?_⟩⟩
  · obtain ⟨k, blamed, hhere, hlast, hget, heval⟩ :=
      Expr.eval_signed_of_signFails hoperators hnan hfails
    refine ⟨k, blamed, hhere, hlast, ?_, by rw [heval]; rfl, rfl⟩
    obtain ⟨hk, _⟩ := List.getElem?_eq_some_iff.1 hget
    rw [htokens, List.getElem?_append_left hk, hget]
  · rcases Expr.eval_signed_of_no_bang hoperators hnan hsound hbang with
      ⟨heven, heval⟩ | ⟨hodd, x, hx, heval⟩
    · refine ⟨fun _ => by rw [heval]; rfl, fun hodd => ?_⟩
      omega
    · refine ⟨fun heven => ?_, fun _ => ⟨x, -x, hx, ?_, by rw [heval]; rfl⟩⟩
      · omega
      · exact Number.toBits_neg (hnan x hx)
  · rw [Expr.eval_signed_of_bang hoperators hnan hsound hbang]
    rfl

theorem run_signs_of_minus :
    ∃ (signs : List Spaced) (operand : Spaced) (v : Value),
      (∀ t ∈ signs ++ [operand], t.token.Lexical ∧ IsGap t.gap) ∧
      (∀ t ∈ signs, t.token.kind.isUnary) ∧ operand.token.operand? = some v ∧
      String.ofList (Spaced.text (signs ++ [operand])) = "- --2" ∧
      ∃ y, run "- --2" = .ok (.number y) ∧ y.toBits = 0xC000000000000000 := by
  obtain ⟨x, hx⟩ : ∃ x, Number.ofDecimal (.ofDigits ['2'] []) = x := ⟨_, rfl⟩
  let minus : Token := .bare .minus "-" none
  let signs : List Spaced := [⟨minus, [' ']⟩, ⟨minus, []⟩, ⟨minus, []⟩]
  let operand : Spaced := ⟨.bare .number "2" (some (.number x)), []⟩
  have hspace : IsGap [' '] := ⟨.blank (by decide) .nil, by rintro c ⟨⟩; rfl⟩
  have hnone : IsGap [] := ⟨.nil, by rintro c ⟨⟩⟩
  have hminus : Lexes "-".toList .minus none := by
    refine .symbol (by decide) fun (hword : IsWord ['-']) => ?_
    cases Lexeme.startsWord_of_isWord hword
  have htwo : Lexes "2".toList .number (some (.number x)) := by
    rw [← hx]
    exact @Lexes.whole ['2'] ⟨by decide, List.all_eq_true.1 (by decide)⟩
  have hlexical : ∀ t ∈ signs ++ [operand], t.token.Lexical ∧ IsGap t.gap := by
    simp only [signs, List.cons_append, List.nil_append, List.forall_mem_cons, List.not_mem_nil,
      false_implies, implies_true, and_true]
    exact ⟨⟨hminus, hspace⟩, ⟨hminus, hnone⟩, ⟨hminus, hnone⟩, htwo, hnone⟩
  have hunary : ∀ t ∈ signs, t.token.kind.isUnary := by decide
  have hbang : .bang ∉ signs.map (·.token.kind) := by decide
  have hsound (k : Nat) : ¬ SignFails (signs.map (·.token.kind)) (.number x) k := by
    rintro ⟨_, h | ⟨j, _, hj⟩⟩
    · exact h _ rfl
    · exact hbang (List.mem_of_getElem? hj)
  have hv : operand.token.operand? = some (.number x) := rfl
  obtain ⟨_, _, hvalue⟩ := run_signs hlexical hunary hv
  obtain ⟨x', y, heq, hy, hrun⟩ := ((hvalue hsound).1 hbang).2 (by decide)
  have htext : String.ofList (Spaced.text (signs ++ [operand])) = "- --2" := by
    simp only [signs, operand, minus, Token.bare, List.cons_append, List.nil_append, Spaced.text]
    decide
  refine ⟨signs, operand, _, hlexical, hunary, hv, htext, y, htext ▸ hrun, hy.trans ?_⟩
  rw [← Value.number.inj heq, ← hx]
  decide +kernel

/-- The minus behind the bang applies to a number. Of the two in front of it the second is to
blame. -/
example : run "--!-2" = .error (.runtime ⟨.operandNotNumber, ⟨.minus, "-", none, 1, ⟨1, 2⟩⟩⟩) := by
  decide +kernel

end Program
end Reckoner
