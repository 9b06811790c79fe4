import Reckoner.Proofs.Expr.Alignment
import Reckoner.Proofs.Token.Scanning

/-!
Trees up to the places of their operators. Printing, the canonical form and derivations do not
depend on places.
-/
namespace Reckoner

def Expr.unplaced : Expr → Expr
  | literal value => literal value
  | grouping inner => grouping inner.unplaced
  | unary operator operand => unary operator.unplaced operand.unplaced
  | binary left operator right => binary left.unplaced operator.unplaced right.unplaced

namespace Expr

theorem bracketed_unplaced (e : Expr) : e.unplaced.bracketed = e.bracketed := by
  induction e <;> simp_all [unplaced, bracketed, Token.unplaced]

theorem literals_unplaced (e : Expr) : e.unplaced.literals = e.literals := by
  induction e <;> simp_all [unplaced, literals]

theorem bindsAtLeast_unplaced (rank : Nat) (e : Expr) :
    e.unplaced.BindsAtLeast rank ↔ e.BindsAtLeast rank := by
  cases e <;> rfl

theorem wellFormed_unplaced (e : Expr) : e.unplaced.WellFormed ↔ e.WellFormed := by
  induction e with
  | literal => rfl
  | grouping inner ih => exact ih
  | unary operator operand ih =>
    simp only [unplaced, WellFormed, bindsAtLeast_unplaced, ih]
    rfl
  | binary left operator right ihl ihr =>
    simp only [unplaced, WellFormed, bindsAtLeast_unplaced, ihl, ihr]
    rfl

end Expr

theorem Token.unplaced_of_face {t u : Token} (h : t.face = u.face) : t.unplaced = u.unplaced :=
  unplaced_eq_iff.2 (face_eq_iff.1 h)

theorem Token.role_of_face {t u : Token} (h : t.face = u.face) : t.role = u.role := by
  obtain ⟨_, hk, hl⟩ := face_eq_iff.1 h
  rw [role, role, operand?, operand?, hk, hl]

theorem forall₂_face {tokens tokens' : List Token}
    (h : tokens.map Token.face = tokens'.map Token.face) :
    List.Forall₂ (fun t t' => t.face = t'.face) tokens tokens' := by
  rw [← List.forall₂_eq_eq_eq, List.forall₂_map_left_iff, List.forall₂_map_right_iff] at h
  exact h

theorem Expr.Matches.unplaced_eq {R : Token → Token → Prop} {e e' : Expr} (h : e.Matches R e')
    (hR : ∀ t t', R t t' → t.unplaced = t'.unplaced) : e.unplaced = e'.unplaced := by
  induction h with
  | literal => rfl
  | grouping _ ih => rw [unplaced, unplaced, ih]
  | unary ho _ ih => rw [unplaced, unplaced, hR _ _ ho, ih]
  | binary _ ho _ ihl ihr => rw [unplaced, unplaced, ihl, hR _ _ ho, ihr]

theorem Derives.of_faces {n : Nonterminal} {tokens tokens' : List Token} {e : Expr}
    (h : Derives n tokens e) (hf : tokens'.map Token.face = tokens.map Token.face) :
    ∃ e', Derives n tokens' e' ∧ e'.unplaced = e.unplaced := by
  obtain ⟨e', hd, he⟩ := h.align (fun _ _ => Token.role_of_face) (forall₂_face hf.symm)
  exact ⟨e', hd, (he.unplaced_eq fun _ _ ht => Token.unplaced_of_face ht.2).symm⟩

end Reckoner
