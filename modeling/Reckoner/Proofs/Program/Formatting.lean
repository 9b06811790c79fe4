import Reckoner.Proofs.Program.RoundTrip

/-!
Formatting. The source text of a program's tree consists of the tokens of the program, with numbers
perhaps spelled otherwise. It is the source text of its own tree, and has the program's outcome.
-/
namespace Reckoner

/-- The same token at a place of its own; a number may also be spelled in a way of its own. -/
structure Token.Respells (t u : Token) : Prop where
  kind : t.kind = u.kind
  literal : t.literal = u.literal
  lexeme : t.kind ≠ .number → t.lexeme = u.lexeme

def Token.Finite (t : Token) : Prop :=
  ∀ x, t.literal = some (.number x) → x.toBits.toNat ≠ Binary64.infinity

/-- Outcomes of programs with these tokens: one value, or runtime errors with one message that
blame the tokens at one index. -/
inductive SameOutcome (tokens tokens' : List Token) :
    Except Error Value → Except Error Value → Prop where
  | value (value : Value) : SameOutcome tokens tokens' (.ok value) (.ok value)
  | runtime {error error' : RuntimeError} :
      error.message = error'.message → SameIndex tokens tokens' error.token error'.token →
      SameOutcome tokens tokens' (.error (.runtime error)) (.error (.runtime error'))

namespace Token

variable {t u : Token}

theorem Respells.refl (t : Token) : t.Respells t :=
  ⟨rfl, rfl, fun _ => rfl⟩

theorem Respells.role_eq (h : t.Respells u) : t.role = u.role := by
  rw [role, role, operand?, operand?, h.kind, h.literal]

theorem Respells.lexeme_of_isOperator (h : t.Respells u) (hk : t.kind.isOperator) :
    t.lexeme = u.lexeme := by
  apply h.lexeme
  intro hnumber
  rw [hnumber] at hk
  cases hk

theorem Respells.of_face {v : Token} (h : t.Respells u) (hf : u.face = v.face) :
    t.Respells v := by
  obtain ⟨hx, hk, hl⟩ := face_eq_iff.1 hf
  exact ⟨h.kind.trans hk, h.literal.trans hl, fun hne => (h.lexeme hne).trans hx⟩

theorem Lexical.respells_bare (h : t.Lexical) {kind : Kind} {lexeme : String} (hk : t.kind = kind)
    (hs : kind.spelling? = some lexeme) : t.Respells (.bare kind lexeme none) := by
  subst hk
  have hp := h.plain (by rw [hs]; rfl)
  exact ⟨rfl, hp.2, fun _ => Option.some.inj (hp.1.symm.trans hs)⟩

theorem Lexical.respells_of_literal (h : t.Lexical) (hfinite : t.Finite) {value : Value}
    (hl : t.literal = some value) : t.Respells value.written := by
  obtain ⟨kind, lexeme, literal, line, span⟩ := t
  cases hl
  unfold Lexical at h
  dsimp only at h
  rw [← @String.ofList_toList lexeme]
  generalize lexeme.toList = text at h ⊢
  cases h with
  | whole | decimal =>
    have hne := hfinite _ rfl
    rw [Value.written, if_neg hne]
    exact ⟨rfl, rfl, fun h => absurd rfl h⟩
  | string => exact ⟨rfl, rfl, fun _ => by simp [Value.written, bare, ← String.toList_inj]⟩

end Token

theorem Token.forall₂_respells_of_face {tokens written tokens' : List Token}
    (h : List.Forall₂ Token.Respells tokens written)
    (hf : written.map Token.face = tokens'.map Token.face) :
    List.Forall₂ Token.Respells tokens tokens' := by
  induction h generalizing tokens' with
  | nil =>
    rw [List.map_eq_nil_iff.1 hf.symm]
    exact .nil
  | cons ht _ ih =>
    obtain ⟨t', rest, rfl, hface, hrest⟩ := List.map_eq_cons_iff.1 hf.symm
    exact .cons (ht.of_face hface.symm) (ih hrest.symm)

theorem Derives.respells_written {n : Nonterminal} {tokens : List Token} {e : Expr}
    (h : Derives n tokens e) (ht : ∀ t ∈ tokens, t.Lexical ∧ t.Finite) :
    List.Forall₂ Token.Respells tokens e.written := by
  induction h with
  | operand _ ih | primary _ ih => exact ih ht
  | binary _ _ _ ihl ihr =>
    obtain ⟨hleft, hrest⟩ := List.forall_mem_append.1 ht
    obtain ⟨_, hright⟩ := List.forall_mem_cons.1 hrest
    exact List.rel_append (ihl hleft) (.cons (.refl _) (ihr hright))
  | unary _ _ ih =>
    obtain ⟨_, htokens⟩ := List.forall_mem_cons.1 ht
    exact .cons (.refl _) (ih htokens)
  | true_ hk | false_ hk | nil_ hk =>
    obtain ⟨hlexical, hfinite⟩ := ht _ List.mem_cons_self
    exact .cons (hlexical.respells_bare hk rfl) .nil
  | literal _ hl =>
    obtain ⟨hlexical, hfinite⟩ := ht _ List.mem_cons_self
    exact .cons (hlexical.respells_of_literal hfinite hl) .nil
  | group ho hc _ ih =>
    obtain ⟨hopening, hrest⟩ := List.forall_mem_cons.1 ht
    obtain ⟨htokens, hclosing⟩ := List.forall_mem_append.1 hrest
    have hclosing := hclosing _ List.mem_cons_self
    exact .cons (hopening.1.respells_bare ho rfl)
      (List.rel_append (ih htokens) (.cons (hclosing.1.respells_bare hc rfl) .nil))

theorem SameResult.sameOutcome {R : Token → Token → Prop} {tokens tokens' : List Token}
    {x y : Except RuntimeError Value} (h : SameResult R x y)
    (hR : ∀ t t', R t t' → t.lexeme = t'.lexeme ∧ SameIndex tokens tokens' t t') :
    SameOutcome tokens tokens' (x.mapError .runtime) (y.mapError .runtime) := by
  cases h with
  | value value => exact .value value
  | fault fault h =>
    obtain ⟨hlexeme, hindex⟩ := hR _ _ h
    refine .runtime ?_ hindex
    cases fault <;> simp [RuntimeError.message, hlexeme]

namespace Program

theorem scanned_source {source : String} {tree : Expr} (h : parse source = .ok tree)
    (hfinite : ∀ t ∈ (scan source).tokens, t.Finite) :
    (scan tree.source).diagnostics = [] ∧
      List.Forall₂ Token.Respells (scanned source) (scanned tree.source) := by
  have hd := parse_scan_eq_ok_iff.1 (parse_eq_ok_iff.1 h).2
  obtain ⟨hw, hs⟩ := wellFormed_of_parse h
  obtain ⟨hdiagnostics, hfaces⟩ := Expr.scan_source hw hs
  have hwritten := hd.respells_written fun t ht =>
    ⟨lexical_of_mem_scanned ht, hfinite t (List.mem_append_left _ ht)⟩
  exact ⟨hdiagnostics, Token.forall₂_respells_of_face hwritten hfaces.symm⟩

/-- Formatting keeps the tokens, gives a text that it does not change again, and keeps the value or
the runtime error. -/
theorem source_preserves {source : String} {tree : Expr} (h : parse source = .ok tree)
    (hfinite : ∀ t ∈ (scan source).tokens, t.Finite) :
    (scan tree.source).diagnostics = [] ∧
      List.Forall₂ Token.Respells (scan source).tokens (scan tree.source).tokens ∧
      (∃ again, parse tree.source = .ok again ∧ again.source = tree.source) ∧
      SameOutcome (scan source).tokens (scan tree.source).tokens
        (run source) (run tree.source) := by
  obtain ⟨hdiagnostics, hscanned⟩ := scanned_source h hfinite
  have hd := parse_scan_eq_ok_iff.1 (parse_eq_ok_iff.1 h).2
  obtain ⟨again, hagain, hmatches⟩ :=
    hd.align (fun _ _ ht => ht.1.role_eq) (forall₂_sameIndex hscanned)
  have hagain : parse tree.source = .ok again :=
    parse_eq_ok_iff.2 ⟨hdiagnostics, parse_scan_eq_ok_iff.2 hagain⟩
  refine ⟨hdiagnostics, ?_, ⟨again, hagain, ?_⟩, ?_⟩
  · rw [scan_tokens, scan_tokens]
    exact List.rel_append hscanned (.cons ⟨rfl, rfl, fun _ => rfl⟩ .nil)
  · exact (hmatches.source_eq fun _ _ ht => ht.2.1.lexeme_of_isOperator ht.1).symm
  · rw [run_of_parse h, run_of_parse hagain, scan_tokens, scan_tokens]
    have hresult := hmatches.eval fun _ _ ht => ht.2.1.kind
    exact hresult.sameOutcome fun _ _ ht =>
      ⟨ht.2.1.lexeme_of_isOperator ht.1, ht.2.2.append _ _⟩

theorem source_preserves_of_note :
    ∃ tree, parse "1.50 -\n\"a\" // note" = .ok tree ∧
      (∀ t ∈ (scan "1.50 -\n\"a\" // note").tokens, t.Finite) ∧ tree.source = "1.5 - \"a\"" ∧
      (scan tree.source).diagnostics = [] ∧
      List.Forall₂ Token.Respells (scan "1.50 -\n\"a\" // note").tokens
        (scan tree.source).tokens ∧
      (∃ again, parse tree.source = .ok again ∧ again.source = tree.source) ∧
      SameOutcome (scan "1.50 -\n\"a\" // note").tokens (scan tree.source).tokens
        (run "1.50 -\n\"a\" // note") (run tree.source) := by
  have h : parse "1.50 -\n\"a\" // note" = .ok
      (.binary (.literal (.number (Number.ofDecimal ⟨15, 1⟩))) ⟨.minus, "-", none, 1, ⟨5, 6⟩⟩
        (.literal (.str "a"))) := by
    decide +kernel
  have htokens : (scan "1.50 -\n\"a\" // note").tokens =
      [⟨.number, "1.50", some (.number (Number.ofDecimal ⟨15, 1⟩)), 1, ⟨0, 4⟩⟩,
        ⟨.minus, "-", none, 1, ⟨5, 6⟩⟩, ⟨.string, "\"a\"", some (.str "a"), 2, ⟨7, 10⟩⟩,
        ⟨.eof, "", none, 2, ⟨18, 18⟩⟩] := by
    decide +kernel
  have hfinite : ∀ t ∈ (scan "1.50 -\n\"a\" // note").tokens, t.Finite := by
    rw [htokens]
    simp only [List.forall_mem_cons, Token.Finite, Option.some.injEq, Value.number.injEq,
      forall_eq', reduceCtorEq, false_implies, implies_true, List.not_mem_nil, and_true]
    decide +kernel
  exact ⟨_, h, hfinite, by decide +kernel, source_preserves h hfinite⟩

end Program
end Reckoner
