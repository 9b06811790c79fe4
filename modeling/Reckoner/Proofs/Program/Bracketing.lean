import Reckoner.Proofs.Program.RoundTrip
import Reckoner.Proofs.Token.LongestMatch

/-!
Bracketed texts. A tree without strings can be told from its text, up to the places of its
operators: what stands before a blank or a closing bracket is the whole text of a tree, and which of
the two stands there says whether another tree comes behind the same head.
-/
namespace Reckoner

def IsAtom (text : List Char) : Prop :=
  text ≠ [] ∧ text.all (· ∉ [' ', '(', ')'])

namespace IsAtom

variable {left right rest rest' : List Char}

theorem notMem (h : IsAtom left) : ∀ c ∈ left, c ∉ [' ', '(', ')'] :=
  fun c hc => of_decide_eq_true (List.all_eq_true.1 h.2 c hc)

theorem append_inj (hl : IsAtom left) (hr : IsAtom right) (he : Expr.Ends rest)
    (he' : Expr.Ends rest') (h : left ++ rest = right ++ rest') : left = right ∧ rest = rest' := by
  have htake {text after : List Char} (ht : IsAtom text) (ha : Expr.Ends after) :
      (text ++ after).takeWhile (fun c => c ∉ [' ', '(', ')']) = text := by
    refine takeWhile_append_of_head (fun c hc => by simpa using ht.notMem c hc) fun c hc => ?_
    rcases ha c hc with rfl | rfl <;> decide
  have hleft := htake hl he
  rw [h, htake hr he'] at hleft
  subst hleft
  exact ⟨rfl, List.append_cancel_left h⟩

theorem node_inj (hl : IsAtom left) (hr : IsAtom right)
    (h : '(' :: (left ++ ' ' :: rest) = '(' :: (right ++ ' ' :: rest')) :
    left = right ∧ rest = rest' := by
  obtain ⟨hhead, hbody⟩ :=
    hl.append_inj hr (by simp [Expr.Ends]) (by simp [Expr.Ends]) (List.cons.inj h).2
  exact ⟨hhead, (List.cons.inj hbody).2⟩

theorem cons_ne (h : IsAtom left) : left ++ rest ≠ '(' :: rest' := by
  intro heq
  cases left with
  | nil => exact h.1 rfl
  | cons c left =>
    obtain ⟨rfl, _⟩ := List.cons.inj heq
    exact h.notMem _ List.mem_cons_self (by decide)

theorem group : IsAtom "group".toList :=
  ⟨by decide, by decide⟩

end IsAtom

namespace Number

theorem isAtom_text {x : Float} (h : x.toBits.toNat ≤ Binary64.infinity) :
    IsAtom (text x).toList := by
  rcases Nat.eq_or_lt_of_le h with heq | hlt
  · rw [text_of_infinity heq]
    exact ⟨by decide, by decide⟩
  · have hdigit {c : Char} (hc : c.isDigit) : c ∉ [' ', '(', ')'] := by
      intro hmem
      simp only [List.mem_cons, List.not_mem_nil, or_false] at hmem
      rcases hmem with rfl | rfl | rfl <;> cases hc
    rw [toList_text hlt]
    refine ⟨by simp [whole_ne_nil], List.all_eq_true.2 fun c hc => decide_eq_true ?_⟩
    rcases List.mem_append.1 hc with hc | hc
    · exact hdigit (isDigit_of_mem_digits (.inl hc))
    · cases hfraction : (digits x).2 with
      | nil => simp [hfraction, Decimal.pointed] at hc
      | cons d fraction =>
        rw [hfraction] at hc
        rcases List.mem_cons.1 hc with rfl | hc
        · decide
        · exact hdigit (isDigit_of_mem_digits (.inr (hfraction ▸ hc)))

end Number

namespace Value

variable {v w : Value}

theorem isAtom_text (h : v.Scannable) (hs : ∀ s, v ≠ str s) : IsAtom v.text.toList := by
  cases v with
  | nil => exact ⟨by decide, by decide⟩
  | bool b => cases b <;> exact ⟨by decide, by decide⟩
  | number x => exact Number.isAtom_text h
  | str s => exact absurd rfl (hs s)

theorem text_eq_literalSource (hs : ∀ s, v ≠ str s) : v.text = Expr.literalSource v := by
  cases v with
  | str s => exact absurd rfl (hs s)
  | nil | bool | number => rfl

theorem Scannable.writable_or_infinity (h : v.Scannable) :
    v.Writable ∨ v = number (Binary64.toFloat Binary64.infinity (Nat.le_refl _)) := by
  cases v with
  | number x =>
    rcases Nat.eq_or_lt_of_le h with heq | hlt
    · exact .inr (congrArg number ((Number.toFloat_eq_iff _).2 heq).symm)
    · exact .inl hlt
  | nil | bool => exact .inl trivial
  | str s => exact .inl h

theorem operand?_written_infinity :
    (number (Binary64.toFloat Binary64.infinity (Nat.le_refl _))).written.operand? = none := by
  rw [written, if_pos (Binary64.toBits_toFloat _)]
  rfl

/-- Strings apart, a value can be told from its text: the text is that of a token, which says what
operand it is, and the word for infinity is none. -/
theorem text_inj (hv : v.Scannable) (hw : w.Scannable) (hsv : ∀ s, v ≠ str s)
    (hsw : ∀ s, w ≠ str s) (h : v.text = w.text) : v = w := by
  have hlv := lexical_written hv
  have hlw := lexical_written hw
  rw [Token.Lexical, lexeme_written, ← text_eq_literalSource hsv] at hlv
  rw [Token.Lexical, lexeme_written, ← text_eq_literalSource hsw, ← h] at hlw
  obtain ⟨hkind, hliteral⟩ := Lexes.unique hlv hlw
  have hoperand : v.written.operand? = w.written.operand? := by
    rw [Token.operand?, Token.operand?, hkind, hliteral]
  rcases hv.writable_or_infinity with hv | rfl
  · rcases hw.writable_or_infinity with hw | rfl
    · rw [operand?_written hv, operand?_written hw] at hoperand
      exact Option.some.inj hoperand
    · rw [operand?_written hv, operand?_written_infinity] at hoperand
      cases hoperand
  · rcases hw.writable_or_infinity with hw | rfl
    · rw [operand?_written hw, operand?_written_infinity] at hoperand
      cases hoperand
    · rfl

end Value

namespace Token.Plain

variable {t u : Token}

theorem isAtom (h : t.Plain) (hk : t.kind.isOperator) : IsAtom t.lexeme.toList := by
  have hs := h.1
  cases hkind : t.kind <;> rw [hkind] at hs hk <;> cases hk <;> rw [← Option.some.inj hs] <;>
    exact ⟨by decide, by decide⟩

theorem lexeme_ne_group (h : t.Plain) (hk : t.kind.isOperator) : t.lexeme ≠ "group" := by
  have hs := h.1
  cases hkind : t.kind <;> rw [hkind] at hs hk <;> cases hk <;> rw [← Option.some.inj hs] <;>
    decide

theorem node_ne_group (h : t.Plain) (hk : t.kind.isOperator) {body body' : List Char} :
    '(' :: (t.lexeme.toList ++ ' ' :: body) ≠ '(' :: ("group".toList ++ ' ' :: body') := by
  intro heq
  have hhead := ((h.isAtom hk).node_inj .group heq).1
  exact h.lexeme_ne_group hk (String.toList_inj.1 hhead)

theorem unplaced_eq (ht : t.Plain) (hu : u.Plain) (hkt : t.kind.isOperator)
    (hku : u.kind.isOperator) (h : t.lexeme = u.lexeme) : t.unplaced = u.unplaced := by
  have hword {t : Token} (hk : t.kind.isOperator) (word : Keyword) : t.kind ≠ .keyword word := by
    intro hkind
    simp [hkind, Kind.isOperator, Kind.isUnary, Kind.level?] at hk
  have hcut := (@cutsInto t [] ht (hword hkt) (by simp)).map_face 0
  have hcut' := (@cutsInto u [] hu (hword hku) (by simp)).map_face 0
  rw [h, hcut'] at hcut
  exact unplaced_of_face (List.singleton_inj.1 hcut).symm

end Token.Plain

namespace Expr

/-- Operators are spelled as their kind, and no literal is a string. -/
def Legible : Expr → Prop
  | literal value => value.Scannable ∧ ∀ s, value ≠ .str s
  | grouping inner => inner.Legible
  | unary operator operand => operator.Plain ∧ operator.kind.isOperator ∧ operand.Legible
  | binary left operator right =>
    operator.Plain ∧ operator.kind.isOperator ∧ left.Legible ∧ right.Legible

theorem WellFormed.legible {e : Expr} (hw : e.WellFormed) (hs : ∀ v ∈ e.literals, v.Scannable)
    (hstr : ∀ s, .str s ∉ e.literals) : e.Legible := by
  induction e with
  | literal v =>
    exact ⟨hs v List.mem_cons_self, fun s hv => hstr s (hv ▸ List.mem_cons_self)⟩
  | grouping inner ih => exact ih hw hs hstr
  | unary operator operand ih =>
    obtain ⟨hk, hplain, _, hoperand⟩ := hw
    exact ⟨hplain, by simp [Kind.isOperator, hk], ih hoperand hs hstr⟩
  | binary left operator right ihl ihr =>
    obtain ⟨level, hk, hplain, _, _, hleft, hright⟩ := hw
    simp only [literals, List.mem_append, not_or] at hs hstr
    exact ⟨hplain, by simp [Kind.isOperator, hk],
      ihl hleft (fun v hv => hs v (.inl hv)) fun s => (hstr s).1,
      ihr hright (fun v hv => hs v (.inr hv)) fun s => (hstr s).2⟩

section
variable {left right inner operand : Expr} {operator : Token} {rest : List Char}

theorem bracketed_grouping_append :
    (grouping inner).bracketed.toList ++ rest =
      '(' :: ("group".toList ++ ' ' :: (inner.bracketed.toList ++ ')' :: rest)) := by
  simp [bracketed]

theorem bracketed_unary_append :
    (unary operator operand).bracketed.toList ++ rest =
      '(' :: (operator.lexeme.toList ++ ' ' :: (operand.bracketed.toList ++ ')' :: rest)) := by
  simp [bracketed]

theorem bracketed_binary_append :
    (binary left operator right).bracketed.toList ++ rest =
      '(' :: (operator.lexeme.toList ++ ' ' ::
        (left.bracketed.toList ++ ' ' :: (right.bracketed.toList ++ ')' :: rest))) := by
  simp [bracketed]

end

/-- In front of a blank or a closing bracket, texts of trees that are continued to the same text
are texts of the same tree. -/
theorem bracketed_append_inj {e e' : Expr} {rest rest' : List Char} (h : e.Legible)
    (h' : e'.Legible) (hrest : Ends rest) (hrest' : Ends rest')
    (heq : e.bracketed.toList ++ rest = e'.bracketed.toList ++ rest') :
    e.unplaced = e'.unplaced ∧ rest = rest' := by
  have hblank (rest : List Char) : Ends (' ' :: rest) := by simp [Ends]
  have hclose (rest : List Char) : Ends (')' :: rest) := by simp [Ends]
  induction e generalizing e' rest rest' with
  | literal v =>
    have hv := Value.isAtom_text h.1 h.2
    cases e' with
    | literal w =>
      have hw := Value.isAtom_text h'.1 h'.2
      obtain ⟨htext, hend⟩ := hv.append_inj hw hrest hrest' heq
      have hvalue := Value.text_inj h.1 h'.1 h.2 h'.2 (String.toList_inj.1 htext)
      exact ⟨congrArg literal hvalue, hend⟩
    | grouping => exact absurd (heq.trans bracketed_grouping_append) hv.cons_ne
    | unary => exact absurd (heq.trans bracketed_unary_append) hv.cons_ne
    | binary => exact absurd (heq.trans bracketed_binary_append) hv.cons_ne
  | grouping inner ih =>
    rw [bracketed_grouping_append] at heq
    cases e' with
    | literal => exact absurd heq.symm (Value.isAtom_text h'.1 h'.2).cons_ne
    | grouping inner' =>
      rw [bracketed_grouping_append] at heq
      have hbody := (IsAtom.group.node_inj .group heq).2
      obtain ⟨hinner, hend⟩ := ih h (show inner'.Legible from h') (hclose _) (hclose _) hbody
      exact ⟨congrArg grouping hinner, (List.cons.inj hend).2⟩
    | unary =>
      rw [bracketed_unary_append] at heq
      exact absurd heq.symm (h'.1.node_ne_group h'.2.1)
    | binary =>
      rw [bracketed_binary_append] at heq
      exact absurd heq.symm (h'.1.node_ne_group h'.2.1)
  | unary operator operand ih =>
    obtain ⟨hplain, hk, hoperand⟩ := h
    rw [bracketed_unary_append] at heq
    cases e' with
    | literal => exact absurd heq.symm (Value.isAtom_text h'.1 h'.2).cons_ne
    | grouping => exact absurd (heq.trans bracketed_grouping_append) (hplain.node_ne_group hk)
    | unary operator' operand' =>
      obtain ⟨hplain', hk', hoperand'⟩ := h'
      rw [bracketed_unary_append] at heq
      obtain ⟨hhead, hbody⟩ := (hplain.isAtom hk).node_inj (hplain'.isAtom hk') heq
      obtain ⟨hsame, hend⟩ := ih hoperand hoperand' (hclose _) (hclose _) hbody
      have hoperator := hplain.unplaced_eq hplain' hk hk' (String.toList_inj.1 hhead)
      exact ⟨by rw [unplaced, unplaced, hoperator, hsame], (List.cons.inj hend).2⟩
    | binary left' operator' right' =>
      -- One text is closed where the other has a second tree.
      obtain ⟨hplain', hk', hleft', _⟩ := h'
      rw [bracketed_binary_append] at heq
      have hbody := ((hplain.isAtom hk).node_inj (hplain'.isAtom hk') heq).2
      cases (ih hoperand hleft' (hclose _) (hblank _) hbody).2
  | binary left operator right ihl ihr =>
    obtain ⟨hplain, hk, hleft, hright⟩ := h
    rw [bracketed_binary_append] at heq
    cases e' with
    | literal => exact absurd heq.symm (Value.isAtom_text h'.1 h'.2).cons_ne
    | grouping => exact absurd (heq.trans bracketed_grouping_append) (hplain.node_ne_group hk)
    | unary operator' operand' =>
      obtain ⟨hplain', hk', hoperand'⟩ := h'
      rw [bracketed_unary_append] at heq
      have hbody := ((hplain.isAtom hk).node_inj (hplain'.isAtom hk') heq).2
      cases (ihl hleft hoperand' (hblank _) (hclose _) hbody).2
    | binary left' operator' right' =>
      obtain ⟨hplain', hk', hleft', hright'⟩ := h'
      rw [bracketed_binary_append] at heq
      obtain ⟨hhead, hbody⟩ := (hplain.isAtom hk).node_inj (hplain'.isAtom hk') heq
      obtain ⟨hsamel, hbody⟩ := ihl hleft hleft' (hblank _) (hblank _) hbody
      obtain ⟨hsamer, hend⟩ := ihr hright hright' (hclose _) (hclose _) (List.cons.inj hbody).2
      have hoperator := hplain.unplaced_eq hplain' hk hk' (String.toList_inj.1 hhead)
      exact ⟨by rw [unplaced, unplaced, hsamel, hoperator, hsamer], (List.cons.inj hend).2⟩

end Expr

namespace Program

/-- Trees of programs without strings have the same text exactly if they are the same in shape, in
every literal, and in every operator but for its place. -/
theorem bracketed_eq_iff {a b : String} {s t : Expr} (ha : parse a = .ok s) (hb : parse b = .ok t)
    (hs : ∀ x, .str x ∉ s.literals) (ht : ∀ x, .str x ∉ t.literals) :
    s.bracketed = t.bracketed ↔ s.unplaced = t.unplaced := by
  constructor
  · intro h
    obtain ⟨hwa, hsa⟩ := wellFormed_of_parse ha
    obtain ⟨hwb, hsb⟩ := wellFormed_of_parse hb
    have hend : Expr.Ends [] := by simp [Expr.Ends]
    refine (Expr.bracketed_append_inj (hwa.legible hsa hs) (hwb.legible hsb ht) hend hend ?_).1
    rw [h]
  · intro h
    rw [← Expr.bracketed_unplaced s, h, Expr.bracketed_unplaced]

theorem unplaced_eq_of_comment :
    ∃ s t, parse "-1 - (2)" = .ok s ∧ parse "-1.0 // one\n- ( 2 )" = .ok t ∧ s ≠ t ∧
      s.unplaced = t.unplaced := by
  have ha : parse "-1 - (2)" = .ok
      (.binary
        (.unary ⟨.minus, "-", none, 1, ⟨0, 1⟩⟩ (.literal (.number (Number.ofDecimal ⟨1, 0⟩))))
        ⟨.minus, "-", none, 1, ⟨3, 4⟩⟩
        (.grouping (.literal (.number (Number.ofDecimal ⟨2, 0⟩))))) := by
    decide +kernel
  have hb : parse "-1.0 // one\n- ( 2 )" = .ok
      (.binary
        (.unary ⟨.minus, "-", none, 1, ⟨0, 1⟩⟩ (.literal (.number (Number.ofDecimal ⟨10, 1⟩))))
        ⟨.minus, "-", none, 2, ⟨12, 13⟩⟩
        (.grouping (.literal (.number (Number.ofDecimal ⟨2, 0⟩))))) := by
    decide +kernel
  refine ⟨_, _, ha, hb, by simp, (bracketed_eq_iff ha hb ?_ ?_).1 (by decide +kernel)⟩ <;>
    simp [Expr.literals]

/-- The quotes of a string are not printed. -/
example : parse "nil" ≠ parse "\"nil\"" ∧
    (parse "nil").map Expr.bracketed = (parse "\"nil\"").map Expr.bracketed := by
  decide +kernel

end Program
end Reckoner
