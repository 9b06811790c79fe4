import Reckoner.Proofs.Number.Rounding

/-!
The search for the shortest decimal. All decimals that are read as a rank lie in one interval with
the exact value in it, so a grid has such a decimal only if it has one next to the exact value. The
grids are nested, and the search stops at the coarsest that has one. The digits that a finite number
with its sign bit clear is written with are read as that number again, bit for bit.
-/
namespace Reckoner

namespace Decimal

variable {d : Decimal} {a b k places : Nat}

theorem atMost_of_le (h : a ≤ b) : AtMost ⟨a, places⟩ ⟨b, places⟩ :=
  Nat.mul_le_mul_right _ h

theorem fits_of_le (hk : 0 < k) {q j : Nat} (hq : q ≤ 10 ^ k) (hd : d.coefficient = q * 10 ^ j) :
    d.Fits k := by
  rcases Nat.eq_or_lt_of_le hq with rfl | hlt
  · refine ⟨1, k + j, Nat.one_lt_pow (by omega) (by decide), ?_⟩
    rw [hd, Nat.one_mul, Nat.pow_add]
  · exact ⟨q, j, hlt, hd⟩

theorem Fits.coarser_or_atMost (h : d.Fits k) (places j : Nat) :
    (∃ q i, j < i ∧ Same d ⟨q * 10 ^ i, places⟩) ∨ AtMost d ⟨10 ^ (k + j), places⟩ := by
  obtain ⟨m, z, hm, hd⟩ := h
  have hpoint : d.coefficient * 10 ^ places = m * 10 ^ (z + places) := by
    rw [hd, Nat.pow_add, Nat.mul_assoc]
  rcases Nat.lt_or_ge (d.places + j) (z + places) with hcoarse | hfine
  · obtain ⟨i, hi⟩ : ∃ i, z + places = i + d.places := ⟨z + places - d.places, by omega⟩
    refine .inl ⟨m, i, by omega, hpoint.trans ?_⟩
    rw [hi, Nat.pow_add, Nat.mul_assoc]
  · refine .inr ?_
    calc
      d.coefficient * 10 ^ places = m * 10 ^ (z + places) := hpoint
      _ ≤ 10 ^ k * 10 ^ (j + d.places) :=
        Nat.mul_le_mul (Nat.le_of_lt hm) (Nat.pow_le_pow_right (by decide) (by omega))
      _ = 10 ^ (k + j) * 10 ^ d.places := by rw [Nat.pow_add, Nat.pow_add, Nat.mul_assoc]

end Decimal

namespace Binary64

section
variable {rank j hit : Nat} {target : Decimal}

theorem onGrid?_eq_some (h : onGrid? rank target j = some hit) :
    (∃ q, q ≤ target.coefficient / 10 ^ j + 1 ∧ hit = q * 10 ^ j) ∧
      ofDecimal ⟨hit, target.places⟩ = rank := by
  have hlower : ∃ q, q ≤ target.coefficient / 10 ^ j + 1 ∧
      target.coefficient / 10 ^ j * 10 ^ j = q * 10 ^ j := ⟨_, Nat.le_succ _, rfl⟩
  have hupper : ∃ q, q ≤ target.coefficient / 10 ^ j + 1 ∧
      target.coefficient / 10 ^ j * 10 ^ j + 10 ^ j = q * 10 ^ j :=
    ⟨_, Nat.le_refl _, (Nat.succ_mul _ _).symm⟩
  unfold onGrid? at h
  dsimp only at h
  split at h
  next hreads =>
    split at h
    next hboth =>
      simp only [Bool.and_eq_true, beq_iff_eq] at hboth
      cases h
      exact ⟨hupper, hboth.2⟩
    next =>
      cases h
      exact ⟨hlower, beq_iff_eq.1 hreads⟩
  next =>
    split at h
    next hreads =>
      cases h
      exact ⟨hupper, beq_iff_eq.1 hreads⟩
    next => cases h

theorem onGrid?_eq_none (htarget : ofDecimal target = rank) (h : onGrid? rank target j = none)
    (q : Nat) : ofDecimal ⟨q * 10 ^ j, target.places⟩ ≠ rank := by
  intro hq
  unfold onGrid? at h
  dsimp only at h
  split at h
  next => split at h <;> cases h
  next hlower =>
    split at h
    next => cases h
    next hupper =>
      rcases Nat.lt_or_ge (target.coefficient / 10 ^ j) q with habove | hbelow
      · have hnext : target.coefficient / 10 ^ j * 10 ^ j + 10 ^ j ≤ q * 10 ^ j := by
          rw [← Nat.succ_mul]
          exact Nat.mul_le_mul_right _ habove
        have htarget_le : target.coefficient ≤ target.coefficient / 10 ^ j * 10 ^ j + 10 ^ j :=
          Nat.le_of_lt (Nat.lt_div_mul_add (Nat.pow_pos (by decide)))
        exact hupper (beq_iff_eq.2 (ofDecimal_between (Decimal.atMost_of_le htarget_le)
          (Decimal.atMost_of_le hnext) htarget hq))
      · have hnext : q * 10 ^ j ≤ target.coefficient / 10 ^ j * 10 ^ j :=
          Nat.mul_le_mul_right _ hbelow
        have hle_target : target.coefficient / 10 ^ j * 10 ^ j ≤ target.coefficient :=
          Nat.div_mul_le_self _ _
        exact hlower (beq_iff_eq.2 (ofDecimal_between (Decimal.atMost_of_le hnext)
          (Decimal.atMost_of_le hle_target) hq htarget))

theorem ofDecimal_coarsest (h : ofDecimal target = rank) (n : Nat) :
    ofDecimal ⟨coarsest rank target n, target.places⟩ = rank := by
  induction n with
  | zero => exact h
  | succ n ih =>
    rw [coarsest]
    cases hg : onGrid? rank target (n + 1) with
    | none => exact ih
    | some hit => exact (onGrid?_eq_some hg).2

/-- The search ends next to the target on some grid. Unless this is the coarsest it looked at, no
point of a coarser grid is read as the rank: the points of all these are on the next one too. -/
theorem coarsest_spec (h : ofDecimal target = rank) (n : Nat) :
    ∃ j q, coarsest rank target n = q * 10 ^ j ∧ q ≤ target.coefficient / 10 ^ j + 1 ∧
      (j = n ∨ ∀ i p, j < i → ofDecimal ⟨p * 10 ^ i, target.places⟩ ≠ rank) := by
  induction n with
  | zero => exact ⟨0, target.coefficient, by simp [coarsest], by simp, .inl rfl⟩
  | succ n ih =>
    rw [coarsest]
    cases hg : onGrid? rank target (n + 1) with
    | some hit =>
      obtain ⟨⟨q, hq, hhit⟩, _⟩ := onGrid?_eq_some hg
      exact ⟨n + 1, q, hhit, hq, .inl rfl⟩
    | none =>
      obtain ⟨j, q, hpoint, hq, rfl | hcoarser⟩ := ih
      · refine ⟨j, q, hpoint, hq, .inr fun i p hi => ?_⟩
        obtain ⟨e, rfl⟩ : ∃ e, i = e + (j + 1) := ⟨i - (j + 1), by omega⟩
        rw [Nat.pow_add, ← Nat.mul_assoc]
        exact onGrid?_eq_none h hg (p * 10 ^ e)
      · exact ⟨j, q, hpoint, hq, .inr hcoarser⟩

end

section
variable {rank : Nat}

theorem ofDecimal_shortest (h : rank < infinity) : ofDecimal (shortest rank) = rank :=
  ofDecimal_coarsest (ofDecimal_exact h) _

theorem shortest_spec (h : rank < infinity) :
    ∃ j q, (shortest rank).coefficient = q * 10 ^ j ∧
      q ≤ (exact rank).coefficient / 10 ^ j + 1 ∧
      ((exact rank).coefficient < 10 ^ j ∨
        ∀ i p, j < i → ofDecimal ⟨p * 10 ^ i, (exact rank).places⟩ ≠ rank) := by
  obtain ⟨j, q, hpoint, hq, rfl | hcoarser⟩ := coarsest_spec (ofDecimal_exact h)
    (Nat.toDigits 10 (exact rank).coefficient).length
  · -- The first grid has no point up to the exact value but zero.
    refine ⟨_, q, hpoint, hq, .inl ?_⟩
    exact (Nat.length_toDigits_le_iff (by decide) Nat.length_toDigits_pos).1 (Nat.le_refl _)
  · exact ⟨j, q, hpoint, hq, .inr hcoarser⟩

theorem shortest_zero : (shortest 0).coefficient = 0 := by
  decide +kernel

theorem ofDecimal_of_coefficient_eq_zero {d : Decimal} (h : d.coefficient = 0) :
    ofDecimal d = 0 := by
  have hsame : d.Same ⟨0, 0⟩ := by simp [Decimal.Same, h]
  rw [ofDecimal_eq_of_same hsame]
  decide +kernel

/-- No decimal of fewer significant digits is read as the rank. A decimal of `k` digits on a coarser
grid than the shortest is out of the question; any other is at most `10 ^ (k + j)`, which would be
on a coarser grid and between it and the exact value if this had more than `k + j` digits. -/
theorem fits_shortest (h : rank < infinity) {k : Nat} {d : Decimal} (hd : d.Fits k)
    (hread : ofDecimal d = rank) : (shortest rank).Fits k := by
  rcases Nat.eq_zero_or_pos k with rfl | hk
  · obtain ⟨m, z, hm, hcoefficient⟩ := hd
    obtain rfl : m = 0 := by omega
    rw [ofDecimal_of_coefficient_eq_zero (by rw [hcoefficient, Nat.zero_mul])] at hread
    exact ⟨0, 0, by decide, hread ▸ shortest_zero⟩
  · obtain ⟨j, q, hpoint, hq, hcoarser⟩ := shortest_spec h
    refine Decimal.fits_of_le hk ?_ hpoint
    have hdiv : (exact rank).coefficient / 10 ^ j < 10 ^ k := by
      rcases hcoarser with hbelow | hcoarser
      · rw [Nat.div_eq_of_lt hbelow]
        exact Nat.pow_pos (by decide)
      · rw [Nat.div_lt_iff_lt_mul (Nat.pow_pos (by decide)), ← Nat.pow_add]
        refine Nat.lt_of_not_le fun hle => ?_
        rcases hd.coarser_or_atMost (exact rank).places j with ⟨p, i, hi, hsame⟩ | hatMost
        · exact hcoarser i p hi (ofDecimal_eq_of_same hsame ▸ hread)
        · have hbetween := ofDecimal_between hatMost (Decimal.atMost_of_le hle) hread
            (ofDecimal_exact h)
          rw [← Nat.one_mul (10 ^ (k + j))] at hbetween
          exact hcoarser (k + j) 1 (by omega) hbetween
    omega

theorem coefficient_exact_of_integer {n : Nat} (hn : magnitude rank = 2 ^ 1074 * n) :
    (exact rank).coefficient = n * 10 ^ (exact rank).places := by
  have hcoefficient := coefficient_exact rank
  rw [hn, Nat.mul_comm, Nat.mul_assoc] at hcoefficient
  have hpos : 0 < 2 ^ 1074 := by decide +kernel
  exact Nat.eq_of_mul_eq_mul_left hpos hcoefficient

/-- The shortest decimal of an integer is an integer: the exact value is a point of the grid of the
integers, so the search stops there at the latest. -/
theorem dvd_coefficient_shortest (h : rank < infinity) (hint : 2 ^ 1074 ∣ magnitude rank) :
    10 ^ (shortest rank).places ∣ (shortest rank).coefficient := by
  change 10 ^ (exact rank).places ∣ (shortest rank).coefficient
  obtain ⟨n, hn⟩ := hint
  have hexact := coefficient_exact_of_integer hn
  obtain ⟨j, q, hpoint, hq, hcoarser⟩ := shortest_spec h
  rcases Nat.lt_or_ge j (exact rank).places with hfine | hcoarse
  · rcases hcoarser with hbelow | hcoarser
    · have hn0 : n = 0 := by
        refine Nat.eq_zero_of_not_pos fun hpos => Nat.not_le.2 hbelow ?_
        rw [hexact]
        exact Nat.le_trans (Nat.pow_le_pow_right (by decide) (Nat.le_of_lt hfine))
          (Nat.le_mul_of_pos_left _ hpos)
      have hrank : rank = 0 := eq_zero_of_magnitude (by rw [hn, hn0, Nat.mul_zero])
      rw [hrank, shortest_zero]
      exact Nat.dvd_zero _
    · exact absurd (hexact ▸ ofDecimal_exact h) (hcoarser (exact rank).places n hfine)
  · rw [hpoint]
    exact Nat.dvd_mul_left_of_dvd (Nat.pow_dvd_pow 10 hcoarse) q

end
end Binary64

namespace Number

open Binary64

theorem toBits_inj {x y : Float} (h : x.toBits = y.toBits) : x = y := by
  obtain ⟨⟨bits, valid⟩⟩ := x
  obtain ⟨⟨bits', valid'⟩⟩ := y
  obtain rfl : bits = bits' := h
  rfl

theorem toFloat_eq_iff {x : Float} {rank : Nat} (h : rank ≤ infinity) :
    toFloat rank h = x ↔ x.toBits.toNat = rank := by
  constructor
  · rintro rfl
    exact toBits_toFloat h
  · intro hx
    apply toBits_inj
    apply UInt64.toNat_inj.1
    rw [toBits_toFloat, hx]

theorem toBits_ofDecimal (d : Decimal) :
    (ofDecimal d).toBits.toNat = Binary64.ofDecimal d :=
  toBits_toFloat _

theorem toBits_ofDecimal_le (d : Decimal) : (ofDecimal d).toBits.toNat ≤ infinity := by
  rw [toBits_ofDecimal]
  exact nearest_le_infinity _ _

section
variable {x : Float}

theorem text_eq_unsignedText (h : x.toBits.toNat ≤ infinity) :
    text x = unsignedText x.toBits.toNat := by
  have hsign : x.toBits.toNat < 2 ^ 63 := Nat.lt_of_le_of_lt h (by decide)
  simp only [text, Nat.pow_eq]
  rw [Nat.mod_eq_of_lt hsign, if_neg (Nat.not_lt.2 h), if_pos hsign]

theorem text_of_finite (h : x.toBits.toNat < infinity) :
    text x = (shortest x.toBits.toNat).text := by
  rw [text_eq_unsignedText (Nat.le_of_lt h), unsignedText, if_neg (Nat.ne_of_lt h)]

theorem text_of_infinity (h : x.toBits.toNat = infinity) : text x = "inf" := by
  rw [text_eq_unsignedText (Nat.le_of_eq h), unsignedText, if_pos h]

def digits (x : Float) : List Char × List Char :=
  let d := shortest x.toBits.toNat
  (d.wholeDigits, Decimal.trimZeros d.fractionDigits)

theorem toList_text (h : x.toBits.toNat < infinity) :
    (text x).toList = (digits x).1 ++ Decimal.pointed (digits x).2 := by
  rw [text_of_finite h, Decimal.toList_text]
  rfl

theorem ofDecimal_digits (h : x.toBits.toNat < infinity) :
    ofDecimal (.ofDigits (digits x).1 (digits x).2) = x := by
  refine (toFloat_eq_iff _).2 ?_
  rw [digits, ofDecimal_eq_of_same (Decimal.same_ofDigits _), ofDecimal_shortest h]

theorem isDigit_of_mem_digits {c : Char} (h : c ∈ (digits x).1 ∨ c ∈ (digits x).2) :
    c.isDigit := by
  rcases h with h | h
  · exact Nat.isDigit_of_mem_toDigits (by decide) (by decide) h
  · exact Decimal.isDigit_of_mem_fractionDigits (Decimal.mem_of_mem_trimZeros h)

theorem whole_ne_nil : (digits x).1 ≠ [] :=
  Nat.toDigits_ne_nil

end
end Number
end Reckoner
