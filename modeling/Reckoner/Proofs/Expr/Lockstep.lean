import Reckoner.Proofs.Expr.FirstFault
import Reckoner.Proofs.Expr.Parsing

/-!
What parsing looks at: kinds, and the literals of numbers and strings. Token lists that agree in
these are parsed in step, to trees with operators from the same places, or up to a fault at the same
place; whatever else the tokens hold has no influence, and is passed on as it is.
-/
namespace Reckoner

structure Token.ParsesAs (t u : Token) : Prop where
  kind : t.kind = u.kind
  literal : t.kind = .number ∨ t.kind = .string → t.literal = u.literal

theorem Token.ParsesAs.role_eq {t u : Token} (h : t.ParsesAs u) : t.role = u.role := by
  have hoperand : t.operand? = u.operand? := by
    unfold operand?
    rw [← h.kind]
    cases hk : t.kind with
    | number => exact h.literal (.inl hk)
    | string => exact h.literal (.inr hk)
    | keyword word => cases word <;> rfl
    | _ => rfl
  rw [role, role, h.kind, hoperand]

namespace Expr

variable {R : Token → Token → Prop} {tokens tokens' : List Token}

theorem EndsAt.align {k : Nat} {tree : Expr} (h : EndsAt tokens k tree)
    (hR : ∀ t t', R t t' → t.role = t'.role) (ht : List.Forall₂ R tokens tokens') :
    ∃ tree', EndsAt tokens' k tree' ∧ tree.Matches (SameIndex tokens tokens') tree' := by
  obtain ⟨⟨t, hk, heof⟩, hd⟩ := h
  obtain ⟨tree', hd', hmatches⟩ :=
    hd.align (fun t t' htt' => hR t t' htt'.1) (List.forall₂_take k (forall₂_sameIndex ht))
  obtain ⟨hlt, rfl⟩ := List.getElem?_eq_some_iff.1 hk
  have hlt' : k < tokens'.length := ht.length_eq ▸ hlt
  have hkind : tokens[k].kind = tokens'[k].kind := congrArg Prod.fst (hR _ _ (ht.get hlt hlt'))
  refine ⟨tree', ⟨⟨_, List.getElem?_eq_getElem hlt', hkind ▸ heof⟩, hd'⟩, ?_⟩
  exact hmatches.mono fun t t' htt' => htt'.2.2

/-- Of two token lists in step, both are parsed or neither is. If they are, the trees have one shape
and the same literals, and their operators come from the same places of the lists, in order. If
not, both have the same fault at one index, and each reports it at the place of its own token
there, or of its own last token behind them all. -/
theorem parse_lockstep (h : List.Forall₂ Token.ParsesAs tokens tokens') :
    (∃ k tree tree', Expr.parse tokens = .ok tree ∧ Expr.parse tokens' = .ok tree' ∧
      tree.Matches (SameIndex tokens tokens') tree' ∧
      tree.operators = (tokens.take k).filter (·.kind.isOperator) ∧
      tree'.operators = (tokens'.take k).filter (·.kind.isOperator)) ∨
    ∃ fault i, i ≤ tokens.length ∧
      (Viability.operand 0).firstFault 0 tokens = some (fault, i) ∧
      (Viability.operand 0).firstFault 0 tokens' = some (fault, i) ∧
      Expr.parse tokens = .error ⟨(placeAt tokens i).1, "", fault, (placeAt tokens i).2⟩ ∧
      Expr.parse tokens' = .error ⟨(placeAt tokens' i).1, "", fault, (placeAt tokens' i).2⟩ := by
  have hroles := h.imp fun _ _ ht => ht.role_eq
  have hfirst := Viability.firstFault_congr hroles (.operand 0) 0
  cases hf : (Viability.operand 0).firstFault 0 tokens with
  | none =>
    obtain ⟨tree, hparse⟩ := exists_parse_of_firstFault hf
    obtain ⟨k, hends⟩ := exists_endsAt_of_parse hparse
    obtain ⟨tree', hends', hmatches⟩ := hends.align (fun _ _ ht => ht) hroles
    exact .inl ⟨k, tree, tree', hparse, hends'.parse_eq_ok, hmatches, hends.2.operators_eq,
      hends'.2.operators_eq⟩
  | some found =>
    obtain ⟨fault, i⟩ := found
    obtain ⟨read, hi, hle, _⟩ := Viability.firstFault_viable hf
    have hf' := hfirst.symm.trans hf
    exact .inr ⟨fault, i, by omega, rfl, hf', parse_of_firstFault hf, parse_of_firstFault hf'⟩

/-- The group is not closed, so the fault is reported behind the last token. -/
theorem parse_lockstep_of_group :
    let tokens : List Token :=
      [⟨.leftParen, "(", none, 1, ⟨0, 1⟩⟩, ⟨.minus, "-", none, 1, ⟨1, 2⟩⟩,
        ⟨.string, "\"a\"", some (.str "a"), 1, ⟨2, 5⟩⟩]
    let tokens' : List Token :=
      [⟨.leftParen, "[", some .nil, 4, ⟨9, 9⟩⟩, ⟨.minus, "!", some (.bool true), 3, ⟨8, 2⟩⟩,
        ⟨.string, "b", some (.str "a"), 2, ⟨7, 8⟩⟩]
    List.Forall₂ Token.ParsesAs tokens tokens' ∧
      ∃ fault i, i ≤ tokens.length ∧
        (Viability.operand 0).firstFault 0 tokens = some (fault, i) ∧
        (Viability.operand 0).firstFault 0 tokens' = some (fault, i) ∧
        Expr.parse tokens = .error ⟨(placeAt tokens i).1, "", fault, (placeAt tokens i).2⟩ ∧
        Expr.parse tokens' =
          .error ⟨(placeAt tokens' i).1, "", fault, (placeAt tokens' i).2⟩ := by
  intro tokens tokens'
  have h : List.Forall₂ Token.ParsesAs tokens tokens' :=
    .cons ⟨rfl, by decide⟩ (.cons ⟨rfl, by decide⟩ (.cons ⟨rfl, fun _ => rfl⟩ .nil))
  refine ⟨h, (parse_lockstep h).resolve_left ?_⟩
  rintro ⟨k, tree, tree', hparse, _⟩
  have hfault : Expr.parse tokens = .error ⟨1, "", .expectedRightParen, ⟨2, 5⟩⟩ := rfl
  cases hfault.symm.trans hparse

end Expr
end Reckoner
