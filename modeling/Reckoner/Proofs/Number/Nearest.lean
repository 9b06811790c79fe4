import Mathlib.Algebra.Order.Field.Rat
import Mathlib.Tactic.FieldSimp
import Mathlib.Tactic.Linarith
import Mathlib.Tactic.NormNum
import Mathlib.Tactic.Positivity
import Mathlib.Tactic.Ring
import Reckoner.Proofs.Number.Patterns

/-!
Rounding in exact rational numbers. A decimal is read as a double than which none is nearer; of two
that are equally near it is the one with the even significand. Infinity begins where the middle
between the largest double and the next one, were there one, is reached, and zero ends at half of
the least positive double.
-/
namespace Reckoner

def Decimal.rational (d : Decimal) : ℚ :=
  d.coefficient / 10 ^ d.places

theorem Decimal.rational_nonneg (d : Decimal) : 0 ≤ d.rational := by
  unfold rational
  positivity

namespace Decimal

theorem atMost_iff {d e : Decimal} : d.AtMost e ↔ d.rational ≤ e.rational := by
  have hd : (0 : ℚ) < 10 ^ d.places := by positivity
  have he : (0 : ℚ) < 10 ^ e.places := by positivity
  rw [rational, rational, div_le_div_iff₀ hd he, AtMost, ← @Nat.cast_le ℚ, Nat.cast_mul,
    Nat.cast_mul, Nat.cast_pow, Nat.cast_pow, Nat.cast_ofNat]

theorem rational_ofDigits (whole fraction : List Char) :
    (ofDigits whole fraction).rational =
      Nat.ofDigitChars 10 whole 0 + Nat.ofDigitChars 10 fraction 0 / 10 ^ fraction.length := by
  have hplaces : (10 : ℚ) ^ fraction.length ≠ 0 := by positivity
  rw [rational, ofDigits, Nat.ofDigitChars_append, Nat.ofDigitChars_eq_ofDigitChars_zero,
    Nat.cast_add, Nat.cast_mul, Nat.cast_pow, Nat.cast_ofNat, add_div,
    mul_div_cancel_left₀ _ hplaces]

theorem rational_ofDigits_zeros (whole fraction : List Char) (m n : Nat) :
    (ofDigits (List.replicate m '0' ++ whole) (fraction ++ List.replicate n '0')).rational =
      (ofDigits whole fraction).rational := by
  have hzeros : (10 : ℚ) ^ n ≠ 0 := by positivity
  rw [rational_ofDigits, rational_ofDigits, Nat.ofDigitChars_append, Nat.ofDigitChars_append,
    Nat.ofDigitChars_replicate_zero, Nat.ofDigitChars_replicate_zero, Nat.mul_zero,
    List.length_append, List.length_replicate, Nat.cast_mul, Nat.cast_pow, pow_add, Nat.cast_ofNat,
    mul_comm, mul_div_mul_right _ _ hzeros]

end Decimal

namespace Binary64

/-- The rational number that a rank stands for, infinity as the double that would come next. -/
def rational (rank : Nat) : ℚ :=
  magnitude rank / 2 ^ 1074

section
variable {r s : Nat} {d : Decimal}

theorem rational_le (h : r ≤ s) : rational r ≤ rational s := by
  have hle : (magnitude r : ℚ) ≤ magnitude s := Nat.cast_le.2 (magnitude_le h)
  unfold rational
  gcongr

theorem rational_zero : rational 0 = 0 := by
  have hzero : magnitude 0 = 0 := magnitude_subnormal (by decide)
  rw [rational, hzero, Nat.cast_zero, zero_div]

theorem rational_one : rational 1 = 1 / 2 ^ 1074 := by
  have hone : magnitude 1 = 1 := magnitude_subnormal (by decide)
  rw [rational, hone, Nat.cast_one]

theorem rational_nonneg (r : Nat) : 0 ≤ rational r := by
  rw [← rational_zero]
  exact rational_le (Nat.zero_le r)

/-- A decimal is read as at most a rank if it lies below the middle between that rank and the next,
or in the middle and the rank is even. -/
theorem ofDecimal_le_iff (h : r < infinity) :
    ofDecimal d ≤ r ↔
      2 * d.rational < rational r + rational (r + 1) ∨
      2 * d.rational = rational r + rational (r + 1) ∧ r % 2 = 0 := by
  -- Both sides over one denominator, with the numerators that are compared in whole numbers.
  have hleft : 2 * d.rational = ((2 * (d.coefficient * 2 ^ 1074) : Nat) : ℚ) /
      (2 ^ 1074 * 10 ^ d.places) := by
    rw [Decimal.rational, Nat.cast_mul, Nat.cast_mul, Nat.cast_pow]
    push_cast
    field_simp
  have hright : rational r + rational (r + 1) =
      (((magnitude r + magnitude (r + 1)) * 10 ^ d.places : Nat) : ℚ) /
        (2 ^ 1074 * 10 ^ d.places) := by
    rw [rational, rational, Nat.cast_mul, Nat.cast_pow]
    push_cast
    field_simp
  rw [hleft, hright, div_lt_div_iff_of_pos_right (by positivity), div_left_inj' (by positivity),
    Nat.cast_lt, Nat.cast_inj, ofDecimal_eq]
  exact nearest_le_iff (Nat.pow_pos (by decide)) h

section
variable {middle : ℚ} (h : r < infinity) (hm : rational r + rational (r + 1) = 2 * middle)
include h hm

theorem ofDecimal_le_iff_of_odd (hr : r % 2 = 1) : ofDecimal d ≤ r ↔ d.rational < middle := by
  rw [ofDecimal_le_iff h, hm]
  constructor
  · rintro (hlt | ⟨_, heven⟩)
    · linarith
    · omega
  · intro hlt
    exact .inl (by linarith)

theorem ofDecimal_le_iff_of_even (hr : r % 2 = 0) : ofDecimal d ≤ r ↔ d.rational ≤ middle := by
  rw [ofDecimal_le_iff h, hm]
  constructor
  · rintro (hlt | ⟨heq, _⟩)
    · linarith
    · linarith
  · intro hle
    rcases lt_or_eq_of_le hle with hlt | rfl
    · exact .inl (by linarith)
    · exact .inr ⟨rfl, hr⟩

end

theorem rational_normal {e fraction : Nat} (h : fraction < 2 ^ 52) :
    rational ((e + 1) * 2 ^ 52 + fraction) = (2 ^ 52 + fraction) * 2 ^ e / 2 ^ 1074 := by
  rw [rational, magnitude_normal h, Nat.cast_mul, Nat.cast_add, Nat.cast_pow, Nat.cast_pow,
    Nat.cast_ofNat]

theorem rational_infinity :
    rational (infinity - 1) = 2 ^ 1024 - 2 ^ 971 ∧ rational infinity = 2 ^ 1024 := by
  have hunits : (2 : ℚ) ^ 1074 ≠ 0 := by positivity
  have htop : (2 : ℚ) ^ 1024 = 2 ^ 53 * 2 ^ 971 := pow_add 2 53 971
  constructor
  · have hlast : (2 : ℚ) ^ 2045 = 2 ^ 971 * 2 ^ 1074 := pow_add 2 971 1074
    have hthis := @rational_normal 2045 (2 ^ 52 - 1) (by decide)
    rw [hlast, ← mul_assoc, mul_div_cancel_right₀ _ hunits] at hthis
    refine Eq.trans hthis ?_
    rw [htop]
    generalize (2 : ℚ) ^ 971 = step
    push_cast
    ring
  · have hnext : (2 : ℚ) ^ 2046 = 2 ^ 972 * 2 ^ 1074 := pow_add 2 972 1074
    have hthis := @rational_normal 2046 0 (by decide)
    rw [hnext, ← mul_assoc, mul_div_cancel_right₀ _ hunits] at hthis
    refine Eq.trans hthis ?_
    have hdouble : (2 : ℚ) ^ 972 = 2 ^ 971 * 2 := pow_succ 2 971
    rw [htop, hdouble]
    generalize (2 : ℚ) ^ 971 = step
    push_cast
    ring

theorem ofDecimal_eq_infinity_iff :
    ofDecimal d = infinity ↔ 2 ^ 1024 - 2 ^ 970 ≤ d.rational := by
  have hmiddle : rational (infinity - 1) + rational (infinity - 1 + 1) =
      2 * (2 ^ 1024 - 2 ^ 970) := by
    obtain ⟨hthis, hnext⟩ := rational_infinity
    have hdouble : (2 : ℚ) ^ 971 = 2 ^ 970 * 2 := pow_succ 2 970
    change _ + rational infinity = _
    rw [hthis, hnext, hdouble]
    generalize (2 : ℚ) ^ 1024 = top, (2 : ℚ) ^ 970 = half
    ring
  have hlast : infinity - 1 < infinity := by decide
  -- The last finite rank is odd, so the middle itself goes to infinity.
  have hle := @ofDecimal_le_iff_of_odd _ d _ hlast hmiddle (by decide)
  have hbound : ofDecimal d ≤ infinity := nearest_le_infinity _ _
  have hnot : ofDecimal d = infinity ↔ ¬ ofDecimal d ≤ infinity - 1 := by omega
  rw [hnot, hle, not_lt]

theorem ofDecimal_eq_zero_iff : ofDecimal d = 0 ↔ d.rational ≤ 1 / 2 ^ 1075 := by
  have hmiddle : rational 0 + rational (0 + 1) = 2 * (1 / 2 ^ 1075) := by
    have hdouble : (2 : ℚ) ^ 1075 = 2 ^ 1074 * 2 := pow_succ 2 1074
    rw [rational_zero, rational_one, hdouble]
    generalize (2 : ℚ) ^ 1074 = units
    ring
  rw [← Nat.le_zero]
  exact ofDecimal_le_iff_of_even (by decide) hmiddle rfl

end

/-! No rank is nearer. -/

section
variable {a b q : ℚ}

theorem abs_sub_le_of_middle (h : (a ≤ b ∧ 2 * q ≤ a + b) ∨ (b ≤ a ∧ a + b ≤ 2 * q)) :
    |a - q| ≤ |b - q| := by
  rcases h with ⟨hab, hq⟩ | ⟨hba, hq⟩
  · rcases abs_cases (a - q) with ⟨ha, _⟩ | ⟨ha, _⟩ <;>
      rcases abs_cases (b - q) with ⟨hb, _⟩ | ⟨hb, _⟩ <;> linarith
  · rcases abs_cases (a - q) with ⟨ha, _⟩ | ⟨ha, _⟩ <;>
      rcases abs_cases (b - q) with ⟨hb, _⟩ | ⟨hb, _⟩ <;> linarith

theorem middle_of_abs_sub_eq (hne : a ≠ b) (h : |a - q| = |b - q|) : 2 * q = a + b := by
  rcases abs_eq_abs.1 h with heq | heq
  · exact absurd (sub_left_inj.1 heq) hne
  · linarith

end

section
variable {d : Decimal} {r s : Nat} {b : ℚ}

/-- What is not above a rank that a decimal is read as, and not above its lower neighbour if there
is one, is not nearer to the decimal; if it is as near, the rank is even. -/
theorem abs_sub_le_of_below (h : ofDecimal d = r) (hr : r < infinity) (hb : b ≤ rational r)
    (hbelow : ∀ s, r = s + 1 → b ≤ rational s) :
    |rational r - d.rational| ≤ |b - d.rational| ∧
      (|rational r - d.rational| = |b - d.rational| → b ≠ rational r → r % 2 = 0) := by
  cases r with
  | zero =>
    have hd := d.rational_nonneg
    have hzero := rational_zero
    exact ⟨abs_sub_le_of_middle (.inr ⟨hb, by linarith⟩), fun _ _ => rfl⟩
  | succ s =>
    -- The decimal is not read as the rank below, so it is not below the middle between the two.
    have hs := hbelow s rfl
    have hle := (@ofDecimal_le_iff _ d (Nat.lt_of_succ_lt hr)).not.1 (by omega)
    obtain ⟨hlt, hodd⟩ := not_or.1 hle
    rw [not_lt] at hlt
    refine ⟨abs_sub_le_of_middle (.inr ⟨hb, by linarith⟩), fun heq hne => ?_⟩
    have hmiddle := middle_of_abs_sub_eq hne.symm heq
    have hsum : 2 * d.rational = rational s + rational (s + 1) := by linarith
    have := not_and.1 hodd hsum
    omega

theorem abs_sub_le_of_above (h : ofDecimal d = r) (hr : r < infinity)
    (hb : rational (r + 1) ≤ b) :
    |rational r - d.rational| ≤ |b - d.rational| ∧
      (|rational r - d.rational| = |b - d.rational| → b ≠ rational r → r % 2 = 0) := by
  have hstep := rational_le (Nat.le_succ r)
  have hle := (@ofDecimal_le_iff _ d hr).1 (Nat.le_of_eq h)
  refine ⟨abs_sub_le_of_middle (.inl ⟨hstep.trans hb, ?_⟩), fun heq hne => ?_⟩
  · rcases hle with hlt | ⟨heq, _⟩ <;> linarith
  · have hmiddle := middle_of_abs_sub_eq hne.symm heq
    rcases hle with hlt | ⟨_, heven⟩
    · linarith
    · exact heven

end

end Binary64

namespace Number

open Binary64

/-- The rational number that a double is; an infinity and a NaN are none, and count as zero. -/
def value (x : Float) : ℚ :=
  match x.toModel.unpack with
  | .finite .positive m e _ => m * 2 ^ e
  | .finite .negative m e _ => -(m * 2 ^ e)
  | _ => 0

def mantissa (x : Float) : Nat :=
  match x.toModel.unpack with
  | .finite _ m _ _ => m
  | _ => 0

/-- The double is finite and no finite double is nearer to the number; if one is as near, the
significand is even. -/
structure IsNearest (q : ℚ) (x : Float) : Prop where
  finite : x.isFinite
  nearest : ∀ y : Float, y.isFinite → |value x - q| ≤ |value y - q|
  even : ∀ y : Float, y.isFinite → |value x - q| = |value y - q| → value y ≠ value x →
    mantissa x % 2 = 0

section
variable {x y : Float} {d e : Decimal}

theorem isFinite_iff : x.isFinite ↔ rank x < infinity := by
  change x.toModel.unpack.isFinite ↔ _
  rcases unpack_cases x with ⟨h, hu⟩ | ⟨h, _, hu⟩ | ⟨h, hu⟩ | ⟨h, hu⟩ <;> rw [hu]
  · exact iff_of_true rfl (by rw [h]; decide)
  · exact iff_of_true rfl h
  · exact iff_of_false Bool.false_ne_true (by omega)
  · exact iff_of_false Bool.false_ne_true (by omega)

theorem isInf_iff : x.isInf ↔ rank x = infinity := by
  change x.toModel.unpack.isInf ↔ _
  rcases unpack_cases x with ⟨h, hu⟩ | ⟨h, _, hu⟩ | ⟨h, hu⟩ | ⟨h, hu⟩ <;> rw [hu]
  · exact iff_of_false Bool.false_ne_true (by rw [h]; decide)
  · exact iff_of_false Bool.false_ne_true (by omega)
  · exact iff_of_true rfl h
  · exact iff_of_false Bool.false_ne_true (by omega)

theorem value_of_finite (h : rank x < infinity) :
    sign x = .positive ∧ value x = rational (rank x) ∨
      sign x = .negative ∧ value x = -rational (rank x) := by
  rcases unpack_cases x with ⟨hr, hu⟩ | ⟨_, hpos, hu⟩ | ⟨hr, _⟩ | ⟨hr, _⟩
  · rw [value, hu, hr, rational_zero]
    cases sign x with
    | positive => exact .inl ⟨rfl, rfl⟩
    | negative => exact .inr ⟨rfl, neg_zero.symm⟩
  · have hscale : (significand (rank x) : ℚ) * 2 ^ ((exponent (rank x) : ℤ) - 1074) =
        rational (rank x) := by
      rw [rational, magnitude_eq, Nat.cast_mul, Nat.cast_pow, zpow_sub₀ two_ne_zero, zpow_natCast,
        Nat.cast_ofNat, mul_div_assoc]
      rfl
    rw [value, hu]
    cases sign x with
    | positive => exact .inl ⟨rfl, hscale⟩
    | negative => exact .inr ⟨rfl, congrArg Neg.neg hscale⟩
  · omega
  · omega

theorem mantissa_of_finite (h : rank x < infinity) : mantissa x = significand (rank x) := by
  rcases unpack_cases x with ⟨hr, hu⟩ | ⟨_, hpos, hu⟩ | ⟨hr, _⟩ | ⟨hr, _⟩
  · rw [mantissa, hu, hr]
    rfl
  · rw [mantissa, hu]
  · omega
  · omega

theorem sign_rank_ofDecimal (d : Decimal) :
    sign (ofDecimal d) = .positive ∧ rank (ofDecimal d) = Binary64.ofDecimal d := by
  rw [← toBits_ofDecimal]
  exact sign_rank_of_le_infinity (toBits_ofDecimal_le d)

theorem significand_mod_two (r : Nat) : significand r % 2 = r % 2 := by
  rw [significand_eq]
  split <;> omega

theorem isInf_ofDecimal_iff : (ofDecimal d).isInf ↔ 2 ^ 1024 - 2 ^ 970 ≤ d.rational := by
  rw [isInf_iff, (sign_rank_ofDecimal d).2, ofDecimal_eq_infinity_iff]

theorem toBits_ofDecimal_eq_zero_iff : (ofDecimal d).toBits = 0 ↔ d.rational ≤ 1 / 2 ^ 1075 := by
  rw [← UInt64.toNat_inj, toBits_ofDecimal]
  exact ofDecimal_eq_zero_iff

theorem isNearest_ofDecimal (hd : d.rational < 2 ^ 1024 - 2 ^ 970) :
    IsNearest d.rational (ofDecimal d) := by
  have h : Binary64.ofDecimal d < infinity := by
    refine Nat.lt_of_le_of_ne (nearest_le_infinity _ _) fun heq => ?_
    exact not_le.2 hd (ofDecimal_eq_infinity_iff.1 heq)
  obtain ⟨hsign, hrank⟩ := sign_rank_ofDecimal d
  have hfinite : rank (ofDecimal d) < infinity := by rwa [hrank]
  have hvalue : value (ofDecimal d) = rational (Binary64.ofDecimal d) := by
    rcases value_of_finite hfinite with ⟨_, hv⟩ | ⟨hs, _⟩
    · rw [hv, hrank]
    · rw [hs] at hsign
      cases hsign
  -- Every other double lies above the next rank or below the one before.
  have hother (y : Float) (hy : y.isFinite) :
      |value (ofDecimal d) - d.rational| ≤ |value y - d.rational| ∧
        (|value (ofDecimal d) - d.rational| = |value y - d.rational| →
          value y ≠ value (ofDecimal d) → Binary64.ofDecimal d % 2 = 0) := by
    rw [hvalue]
    rcases value_of_finite (isFinite_iff.1 hy) with ⟨_, hv⟩ | ⟨_, hv⟩
    · rw [hv]
      rcases Nat.lt_trichotomy (rank y) (Binary64.ofDecimal d) with hlt | heq | hgt
      · refine abs_sub_le_of_below rfl h (rational_le (Nat.le_of_lt hlt)) fun s hs => ?_
        exact rational_le (by omega)
      · rw [heq]
        exact ⟨le_refl _, fun _ hne => absurd rfl hne⟩
      · exact abs_sub_le_of_above rfl h (rational_le hgt)
    · have hnonpos : value y ≤ 0 := by
        rw [hv]
        exact neg_nonpos.2 (rational_nonneg _)
      exact abs_sub_le_of_below rfl h (hnonpos.trans (rational_nonneg _))
        fun s _ => hnonpos.trans (rational_nonneg s)
  refine ⟨isFinite_iff.2 hfinite, fun y hy => (hother y hy).1, fun y hy heq hne => ?_⟩
  rw [mantissa_of_finite hfinite, hrank, significand_mod_two]
  exact (hother y hy).2 heq hne

/-! Order. -/

theorem exponent_significand_le {r s : Nat} (h : r ≤ s) :
    exponent r < exponent s ∨ exponent r = exponent s ∧ significand r ≤ significand s := by
  simp only [exponent_eq, significand_eq]
  split <;> split <;> omega

theorem le_of_rank_le (hx : x.toBits.toNat ≤ infinity) (hy : y.toBits.toNat ≤ infinity)
    (h : rank x ≤ rank y) : x ≤ y := by
  obtain ⟨hsx, _⟩ := sign_rank_of_le_infinity hx
  obtain ⟨hsy, hry⟩ := sign_rank_of_le_infinity hy
  refine decide_eq_true ?_
  change (x.toModel.unpack.compare y.toModel.unpack).any Ordering.isLE = true
  rcases unpack_cases y with ⟨hr, hu⟩ | ⟨hr, _, hu⟩ | ⟨_, hu⟩ | ⟨hr, _⟩
  · rw [unpack_of_zero (Nat.le_zero.1 (hr ▸ h)), hu, hsx, hsy]
    rfl
  · by_cases hzero : rank x = 0
    · rw [unpack_of_zero hzero, hu, hsx, hsy]
      rfl
    · rw [unpack_of_finite (Nat.lt_of_le_of_lt h hr) hzero, hu, hsx, hsy]
      change ((compare ((exponent (rank x) : ℤ) - 1074) (exponent (rank y) - 1074)).then
        (compare (significand (rank x)) (significand (rank y)))).isLE = true
      rw [Ordering.isLE_then_iff_or, Std.compare_eq_lt, compare_eq_iff_eq, Std.isLE_compare]
      rcases exponent_significand_le h with hlt | ⟨heq, hle⟩
      · exact .inl (by omega)
      · exact .inr ⟨by rw [heq], hle⟩
  · rcases unpack_cases x with ⟨_, hu'⟩ | ⟨_, _, hu'⟩ | ⟨_, hu'⟩ | ⟨hr, _⟩
    · rw [hu, hu', hsx, hsy]
      rfl
    · rw [hu, hu', hsx, hsy]
      rfl
    · rw [hu, hu', hsx, hsy]
      rfl
    · omega
  · omega

theorem ofDecimal_le (h : d.rational ≤ e.rational) : ofDecimal d ≤ ofDecimal e := by
  refine le_of_rank_le (toBits_ofDecimal_le d) (toBits_ofDecimal_le e) ?_
  rw [(sign_rank_ofDecimal d).2, (sign_rank_ofDecimal e).2]
  exact ofDecimal_mono (Decimal.atMost_iff.2 h)

theorem ofDecimal_eq_of_rational_eq (h : d.rational = e.rational) : ofDecimal d = ofDecimal e := by
  have hsame : Binary64.ofDecimal d = Binary64.ofDecimal e :=
    Nat.le_antisymm (ofDecimal_mono (Decimal.atMost_iff.2 (le_of_eq h)))
      (ofDecimal_mono (Decimal.atMost_iff.2 (le_of_eq h.symm)))
  refine eq_iff_sign_rank.2 ⟨?_, ?_⟩
  · rw [(sign_rank_ofDecimal d).1, (sign_rank_ofDecimal e).1]
  · rw [(sign_rank_ofDecimal d).2, (sign_rank_ofDecimal e).2, hsame]

end
end Number
end Reckoner
