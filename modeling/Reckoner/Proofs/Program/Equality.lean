import Reckoner.Proofs.Number.Patterns
import Reckoner.Proofs.Program.RoundTrip

/-!
Equality of trees. Trees are equal in the language if they are the same but for the signs of zeros,
and have no NaN in them. Trees of programs have no NaN and no zero with a sign, so for them equality
is identity.
-/
namespace Reckoner

namespace Value

def isNaN : Value → Bool
  | number x => x.isNaN
  | _ => false

def normal : Value → Value
  | number x => number (Number.normal x)
  | v => v

theorem isNaN_normal (v : Value) : v.normal.isNaN = v.isNaN := by
  cases v with
  | number x => exact Bool.eq_iff_iff.2 Number.isNaN_normal
  | nil | bool | str => rfl

theorem equals_iff {v w : Value} : v.equals w ↔ v.normal = w.normal ∧ v.isNaN = false := by
  cases v with
  | number x =>
    cases w with
    | number y => simp [equals, normal, isNaN, Number.beq_iff_normal]
    | nil | bool | str => simp [equals, normal]
  | nil | bool | str => cases w <;> simp [equals, normal, isNaN]

theorem Scannable.isNaN_eq_false {v : Value} (h : v.Scannable) : v.isNaN = false := by
  cases v with
  | number x => simpa [isNaN] using Number.not_isNaN_of_le_infinity h
  | nil | bool | str => rfl

theorem Scannable.normal_eq {v : Value} (h : v.Scannable) : v.normal = v := by
  cases v with
  | number x => exact congrArg number (Number.normal_of_le_infinity h)
  | nil | bool | str => rfl

end Value

namespace Token

def normal (t : Token) : Token :=
  { t with literal := t.literal.map Value.normal }

theorem literalEquals_iff {a b : Option Value} :
    literalEquals a b ↔ a.map Value.normal = b.map Value.normal ∧ ∀ v ∈ a, v.isNaN = false := by
  cases a <;> cases b <;> simp [literalEquals, Value.equals_iff]

theorem equals_iff {t u : Token} :
    t.equals u ↔ t.normal = u.normal ∧ ∀ v ∈ t.literal, v.isNaN = false := by
  simp only [equals, Bool.and_eq_true, beq_iff_eq, literalEquals_iff, normal, Token.mk.injEq]
  tauto

end Token

namespace Expr

def normal : Expr → Expr
  | literal value => literal value.normal
  | grouping inner => grouping inner.normal
  | unary operator operand => unary operator.normal operand.normal
  | binary left operator right => binary left.normal operator.normal right.normal

/-- Neither a literal of the tree nor one that an operator carries is a NaN. -/
def NaNFree (e : Expr) : Prop :=
  (∀ v ∈ e.literals, v.isNaN = false) ∧
    ∀ operator ∈ e.operators, ∀ v ∈ operator.literal, v.isNaN = false

section
variable {left right : Expr} {operator : Token}

theorem nanFree_unary :
    (unary operator right).NaNFree ↔
      (∀ v ∈ operator.literal, v.isNaN = false) ∧ right.NaNFree := by
  simp only [NaNFree, literals, operators, List.forall_mem_cons]
  exact and_left_comm

theorem nanFree_binary :
    (binary left operator right).NaNFree ↔
      left.NaNFree ∧ (∀ v ∈ operator.literal, v.isNaN = false) ∧ right.NaNFree := by
  simp only [NaNFree, literals, operators, List.forall_mem_append, List.forall_mem_cons]
  tauto

end

theorem equals_iff {s t : Expr} : s.equals t ↔ s.normal = t.normal ∧ s.NaNFree := by
  induction s generalizing t with
  | literal v =>
    cases t <;> simp [equals, normal, NaNFree, literals, operators, Value.equals_iff]
  | grouping inner ih =>
    cases t with
    | grouping inner' => exact ih.trans (by rw [normal, normal, grouping.injEq]; rfl)
    | _ => simp [equals, normal]
  | unary operator operand ih =>
    cases t with
    | unary operator' operand' =>
      rw [equals, Bool.and_eq_true, Token.equals_iff, ih, nanFree_unary, normal, normal,
        unary.injEq]
      tauto
    | _ => simp [equals, normal]
  | binary left operator right ihl ihr =>
    cases t with
    | binary left' operator' right' =>
      rw [equals, Bool.and_eq_true, Bool.and_eq_true, Token.equals_iff, ihl, ihr, nanFree_binary,
        normal, normal, binary.injEq]
      tauto
    | _ => simp [equals, normal]

/-- Zeros of either sign are equal, and have different texts. -/
example :
    (literal (.number (.ofBits 0))).equals (literal (.number (.ofBits 0x8000000000000000))) ∧
      (literal (.number (.ofBits 0))).bracketed ≠
        (literal (.number (.ofBits 0x8000000000000000))).bracketed := by
  decide +kernel

theorem nanFree_normal {e : Expr} : e.normal.NaNFree ↔ e.NaNFree := by
  have hoperator {t : Token} :
      (∀ v ∈ t.normal.literal, v.isNaN = false) ↔ ∀ v ∈ t.literal, v.isNaN = false := by
    simp [Token.normal, Value.isNaN_normal]
  induction e with
  | literal v => simp [normal, NaNFree, literals, operators, Value.isNaN_normal]
  | grouping inner ih => exact ih
  | unary operator operand ih => simp only [normal, nanFree_unary, hoperator, ih]
  | binary left operator right ihl ihr =>
    simp only [normal, nanFree_binary, hoperator, ihl, ihr]

theorem equals_comm (s t : Expr) : s.equals t = t.equals s := by
  have hnan (h : s.normal = t.normal) : s.NaNFree ↔ t.NaNFree := by
    rw [← nanFree_normal, h, nanFree_normal]
  rw [Bool.eq_iff_iff, equals_iff, equals_iff, eq_comm]
  exact and_congr_right fun h => hnan h.symm

theorem equals_trans {s t u : Expr} (hst : s.equals t) (htu : t.equals u) : s.equals u := by
  rw [equals_iff] at hst htu ⊢
  exact ⟨hst.1.trans htu.1, hst.2⟩

theorem equals_self_iff {e : Expr} : e.equals e ↔ e.NaNFree := by
  rw [equals_iff]
  exact and_iff_right rfl

theorem WellFormed.literal_eq_none {e : Expr} (h : e.WellFormed) :
    ∀ operator ∈ e.operators, operator.literal = none := by
  induction e with
  | literal v => simp [operators]
  | grouping inner ih => exact ih h
  | unary operator operand ih =>
    obtain ⟨_, hplain, _, hoperand⟩ := h
    exact List.forall_mem_cons.2 ⟨hplain.2, ih hoperand⟩
  | binary left operator right ihl ihr =>
    obtain ⟨_, _, hplain, _, _, hleft, hright⟩ := h
    exact List.forall_mem_append.2
      ⟨ihl hleft, List.forall_mem_cons.2 ⟨hplain.2, ihr hright⟩⟩

theorem normal_eq_self {e : Expr} (hliterals : ∀ v ∈ e.literals, v.normal = v)
    (hoperators : ∀ operator ∈ e.operators, operator.literal = none) : e.normal = e := by
  have hoperator {t : Token} (ht : t.literal = none) : t.normal = t := by
    rw [Token.normal, ht, Option.map_none, ← ht]
  induction e with
  | literal v => exact congrArg literal (hliterals v List.mem_cons_self)
  | grouping inner ih => exact congrArg grouping (ih hliterals hoperators)
  | unary operator operand ih =>
    obtain ⟨hhere, hoperand⟩ := List.forall_mem_cons.1 hoperators
    rw [normal, hoperator hhere, ih hliterals hoperand]
  | binary left operator right ihl ihr =>
    obtain ⟨hliteralsl, hliteralsr⟩ := List.forall_mem_append.1 hliterals
    obtain ⟨hleft, hrest⟩ := List.forall_mem_append.1 hoperators
    obtain ⟨hhere, hright⟩ := List.forall_mem_cons.1 hrest
    rw [normal, ihl hliteralsl hleft, hoperator hhere, ihr hliteralsr hright]

end Expr

namespace Program

section
variable {a b : String} {s t : Expr}

theorem nanFree_of_parse_scan (h : Expr.parse (scan a).tokens = .ok s) : s.NaNFree := by
  obtain ⟨hw, hs⟩ := wellFormed_of_parse_scan h
  refine ⟨fun v hv => (hs v hv).isNaN_eq_false, fun operator hoperator => ?_⟩
  simp [hw.literal_eq_none operator hoperator]

theorem normal_of_parse_scan (h : Expr.parse (scan a).tokens = .ok s) : s.normal = s := by
  obtain ⟨hw, hs⟩ := wellFormed_of_parse_scan h
  exact Expr.normal_eq_self (fun v hv => (hs v hv).normal_eq) hw.literal_eq_none

theorem equals_iff_eq (ha : Expr.parse (scan a).tokens = .ok s)
    (hb : Expr.parse (scan b).tokens = .ok t) : s.equals t ↔ s = t := by
  rw [Expr.equals_iff, normal_of_parse_scan ha, normal_of_parse_scan hb]
  exact and_iff_left (nanFree_of_parse_scan ha)

end

/-- Equality of trees is symmetric and transitive, and a tree equals itself exactly if there is no
NaN in it. Trees that are parsed from sources are equal exactly if they are the same in every field,
with numbers bit for bit; so they equal themselves, and equal ones have the same texts and are
evaluated to the same value, or fail alike at the same token. -/
theorem equals_laws :
    (∀ s t : Expr, s.equals t = t.equals s) ∧
    (∀ s t u : Expr, s.equals t → t.equals u → s.equals u) ∧
    (∀ t : Expr, t.equals t ↔ t.NaNFree) ∧
    ∀ a b s t, Expr.parse (scan a).tokens = .ok s → Expr.parse (scan b).tokens = .ok t →
      (s.equals t ↔ s = t) ∧ s.equals s ∧
        (s.equals t → s.bracketed = t.bracketed ∧ s.source = t.source ∧ s.eval = t.eval) := by
  refine ⟨Expr.equals_comm, fun _ _ _ => Expr.equals_trans, fun _ => Expr.equals_self_iff,
    fun a b s t ha hb => ⟨equals_iff_eq ha hb, ?_, fun h => ?_⟩⟩
  · exact Expr.equals_self_iff.2 (nanFree_of_parse_scan ha)
  · obtain rfl := (equals_iff_eq ha hb).1 h
    exact ⟨rfl, rfl, rfl⟩

end Program
end Reckoner
