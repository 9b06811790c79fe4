import Reckoner.Proofs.Number.Digits

/-!
Ranks of doubles and exact magnitudes. A magnitude rounds to its own rank, whatever fraction it is
written as. What rounds to at most a rank is bounded by the middle between its magnitude and the
next, so a larger decimal is never read as a smaller rank.
-/
namespace Reckoner.Binary64

/-! The definitions again, with powers written as such. -/

theorem infinity_eq : infinity = 2047 * 2 ^ 52 :=
  rfl

theorem significand_eq (rank : Nat) :
    significand rank = if rank < 2 ^ 52 then rank else 2 ^ 52 + rank % 2 ^ 52 :=
  rfl

theorem exponent_eq (rank : Nat) : exponent rank = rank / 2 ^ 52 - 1 :=
  rfl

theorem magnitude_eq (rank : Nat) : magnitude rank = significand rank * 2 ^ exponent rank :=
  rfl

theorem ofDecimal_eq (d : Decimal) :
    ofDecimal d = nearest (d.coefficient * 2 ^ 1074) (10 ^ d.places) := by
  unfold ofDecimal
  generalize 1074 = places
  rfl

theorem subnormal_or_normal (rank : Nat) :
    rank < 2 ^ 52 ∨ ∃ e fraction, fraction < 2 ^ 52 ∧ rank = (e + 1) * 2 ^ 52 + fraction := by
  rcases Nat.lt_or_ge rank (2 ^ 52) with h | h
  · exact .inl h
  · exact .inr ⟨rank / 2 ^ 52 - 1, rank % 2 ^ 52, by omega, by omega⟩

section
variable {rank e fraction : Nat}

theorem exponent_subnormal (h : rank < 2 ^ 52) : exponent rank = 0 := by
  rw [exponent_eq]
  omega

theorem significand_subnormal (h : rank < 2 ^ 52) : significand rank = rank :=
  if_pos h

theorem exponent_normal (h : fraction < 2 ^ 52) :
    exponent ((e + 1) * 2 ^ 52 + fraction) = e := by
  rw [exponent_eq]
  omega

theorem significand_normal (h : fraction < 2 ^ 52) :
    significand ((e + 1) * 2 ^ 52 + fraction) = 2 ^ 52 + fraction := by
  rw [significand_eq, if_neg (by omega)]
  omega

theorem magnitude_subnormal (h : rank < 2 ^ 52) : magnitude rank = rank := by
  rw [magnitude_eq, significand_subnormal h, exponent_subnormal h]
  omega

theorem magnitude_normal (h : fraction < 2 ^ 52) :
    magnitude ((e + 1) * 2 ^ 52 + fraction) = (2 ^ 52 + fraction) * 2 ^ e := by
  rw [magnitude_eq, significand_normal h, exponent_normal h]

end

/-- Neighbours differ by one unit of the lower one's exponent, also where the exponent changes. -/
theorem magnitude_succ (rank : Nat) :
    magnitude (rank + 1) = magnitude rank + 2 ^ exponent rank := by
  rcases subnormal_or_normal rank with h | ⟨e, fraction, h, rfl⟩
  · rw [magnitude_subnormal h, exponent_subnormal h]
    rcases Nat.lt_or_ge (rank + 1) (2 ^ 52) with hnext | hnext
    · rw [magnitude_subnormal hnext, Nat.pow_zero]
    · obtain rfl : rank = 2 ^ 52 - 1 := by omega
      decide
  · rw [magnitude_normal h, exponent_normal h]
    rcases Nat.lt_or_ge (fraction + 1) (2 ^ 52) with hnext | hnext
    · rw [Nat.add_assoc, magnitude_normal hnext, ← Nat.add_assoc, Nat.add_mul, Nat.one_mul]
    · obtain rfl : fraction = 2 ^ 52 - 1 := by omega
      have hcarry : (e + 1) * 2 ^ 52 + (2 ^ 52 - 1) + 1 = (e + 1 + 1) * 2 ^ 52 + 0 := by omega
      rw [hcarry, magnitude_normal (by decide), Nat.pow_succ]
      omega

theorem magnitude_lt_succ (rank : Nat) : magnitude rank < magnitude (rank + 1) := by
  rw [magnitude_succ]
  exact Nat.lt_add_of_pos_right (Nat.pow_pos (by decide))

theorem magnitude_lt {rank rank' : Nat} (h : rank < rank') : magnitude rank < magnitude rank' := by
  induction h with
  | refl => exact magnitude_lt_succ rank
  | step _ ih => exact Nat.lt_trans ih (magnitude_lt_succ _)

theorem magnitude_le {rank rank' : Nat} (h : rank ≤ rank') : magnitude rank ≤ magnitude rank' := by
  rcases Nat.eq_or_lt_of_le h with rfl | hlt
  · exact Nat.le_refl _
  · exact Nat.le_of_lt (magnitude_lt hlt)

theorem eq_zero_of_magnitude {rank : Nat} (h : magnitude rank = 0) : rank = 0 :=
  Nat.eq_zero_of_not_pos fun hpos => Nat.not_lt_zero _ (h ▸ magnitude_lt hpos)

theorem rankBelow_subnormal {units : Nat} (h : units < 2 ^ 52) : rankBelow units = units := by
  have hlog : units.log2 ≤ 52 := by
    by_cases hzero : units = 0
    · simp [hzero]
    · exact Nat.le_of_lt ((Nat.log2_lt hzero).2 h)
  have hshift : units.log2 - 52 = 0 := by omega
  simp [rankBelow, hshift]

theorem rankBelow_normal {units : Nat} (h : 2 ^ 52 ≤ units) :
    ∃ e fraction, fraction < 2 ^ 52 ∧ units / 2 ^ e = 2 ^ 52 + fraction ∧
      rankBelow units = (e + 1) * 2 ^ 52 + fraction := by
  have hne : units ≠ 0 := by omega
  obtain ⟨e, he⟩ : ∃ e, units.log2 = 52 + e :=
    ⟨units.log2 - 52, by have := (Nat.le_log2 hne).2 h; omega⟩
  have hpos : 0 < 2 ^ e := Nat.pow_pos (by decide)
  have hlow := Nat.log2_self_le hne
  have hhigh := @Nat.lt_log2_self units
  rw [he, Nat.pow_add, ← Nat.le_div_iff_mul_le hpos] at hlow
  rw [he, Nat.add_right_comm, Nat.pow_add, ← Nat.div_lt_iff_lt_mul hpos] at hhigh
  refine ⟨e, units / 2 ^ e - 2 ^ 52, by omega, by omega, ?_⟩
  simp only [rankBelow, he, Nat.add_sub_cancel_left, Nat.pow_eq]
  omega

theorem rankBelow_bounds (units : Nat) :
    magnitude (rankBelow units) ≤ units ∧ units < magnitude (rankBelow units + 1) := by
  rw [magnitude_succ]
  rcases Nat.lt_or_ge units (2 ^ 52) with h | h
  · rw [rankBelow_subnormal h, magnitude_subnormal h, exponent_subnormal h]
    omega
  · obtain ⟨e, fraction, hfraction, hquotient, hrank⟩ := rankBelow_normal h
    have hsplit := Nat.div_add_mod units (2 ^ e)
    have hmod := Nat.mod_lt units (Nat.pow_pos (n := e) (show 0 < 2 by decide))
    rw [hquotient, Nat.mul_comm] at hsplit
    rw [hrank, magnitude_normal hfraction, exponent_normal hfraction]
    omega

theorem rankBelow_magnitude (rank : Nat) : rankBelow (magnitude rank) = rank := by
  obtain ⟨hle, hlt⟩ := rankBelow_bounds (magnitude rank)
  apply Nat.le_antisymm
  · exact Nat.le_of_not_lt fun h => Nat.not_lt.2 hle (magnitude_lt h)
  · exact Nat.le_of_not_lt fun h => Nat.not_lt.2 (magnitude_le h) hlt

theorem nearest_magnitude {rank denominator : Nat} (h : rank < infinity) (hd : 0 < denominator) :
    nearest (magnitude rank * denominator) denominator = rank := by
  have hlt : magnitude rank * denominator < magnitude (rank + 1) * denominator :=
    Nat.mul_lt_mul_of_pos_right (magnitude_lt_succ rank) hd
  unfold nearest
  rw [Nat.mul_div_cancel _ hd, rankBelow_magnitude, if_neg (Nat.not_le.2 h), Nat.add_mul,
    if_pos (by omega)]

section
variable {numerator numerator' denominator rank : Nat}

/-- A fraction is rounded to at most a rank if it lies below the middle between that rank and the
next, or in the middle and the rank is even. -/
theorem nearest_le_iff (hd : 0 < denominator) (h : rank < infinity) :
    nearest numerator denominator ≤ rank ↔
      2 * numerator < (magnitude rank + magnitude (rank + 1)) * denominator ∨
      2 * numerator = (magnitude rank + magnitude (rank + 1)) * denominator ∧ rank % 2 = 0 := by
  obtain ⟨hlow, hhigh⟩ := rankBelow_bounds (numerator / denominator)
  rw [Nat.le_div_iff_mul_le hd] at hlow
  rw [Nat.div_lt_iff_lt_mul hd] at hhigh
  unfold nearest
  generalize rankBelow (numerator / denominator) = below at hlow hhigh
  dsimp only
  rcases Nat.lt_trichotomy rank below with hlt | rfl | hgt
  · have hthis : magnitude rank * denominator < magnitude below * denominator :=
      Nat.mul_lt_mul_of_pos_right (magnitude_lt hlt) hd
    have hnext : magnitude (rank + 1) * denominator ≤ magnitude below * denominator :=
      Nat.mul_le_mul_right _ (magnitude_le hlt)
    rw [Nat.add_mul (magnitude rank)]
    split
    · omega
    · split
      · omega
      · split <;> omega
  · rw [if_neg (Nat.not_le.2 h)]
    split
    · omega
    · split <;> omega
  · have hthis : magnitude (below + 1) * denominator ≤ magnitude rank * denominator :=
      Nat.mul_le_mul_right _ (magnitude_le hgt)
    have hnext : magnitude rank * denominator ≤ magnitude (rank + 1) * denominator :=
      Nat.mul_le_mul_right _ (magnitude_le (Nat.le_succ _))
    rw [Nat.add_mul (magnitude rank), if_neg (by omega)]
    split
    · omega
    · split <;> omega

theorem nearest_mono (hd : 0 < denominator) (h : numerator ≤ numerator') :
    nearest numerator denominator ≤ nearest numerator' denominator := by
  rcases Nat.eq_or_lt_of_le (nearest_le_infinity numerator' denominator) with heq | hlt
  · rw [heq]
    exact nearest_le_infinity _ _
  · have hbound := (nearest_le_iff hd hlt).1 (Nat.le_refl _)
    rw [nearest_le_iff hd hlt]
    omega

end

theorem nearest_mul {factor : Nat} (hf : 0 < factor) (numerator denominator : Nat) :
    nearest (numerator * factor) (denominator * factor) = nearest numerator denominator := by
  unfold nearest
  rw [Nat.mul_div_mul_right _ _ hf]
  dsimp only
  simp only [← Nat.mul_assoc, Nat.mul_lt_mul_right hf]

section
variable {d e f : Decimal}

theorem ofDecimal_mono (h : d.AtMost e) : ofDecimal d ≤ ofDecimal e := by
  have hd : 0 < 10 ^ d.places := Nat.pow_pos (by decide)
  have he : 0 < 10 ^ e.places := Nat.pow_pos (by decide)
  calc
    ofDecimal d
      = nearest (d.coefficient * 2 ^ 1074 * 10 ^ e.places) (10 ^ d.places * 10 ^ e.places) := by
        rw [ofDecimal_eq, nearest_mul he]
    _ = nearest (d.coefficient * 10 ^ e.places * 2 ^ 1074) (10 ^ e.places * 10 ^ d.places) := by
        rw [Nat.mul_right_comm, Nat.mul_comm (10 ^ d.places)]
    _ ≤ nearest (e.coefficient * 10 ^ d.places * 2 ^ 1074) (10 ^ e.places * 10 ^ d.places) :=
        nearest_mono (Nat.mul_pos he hd) (Nat.mul_le_mul_right _ h)
    _ = ofDecimal e := by
        rw [Nat.mul_right_comm, nearest_mul hd, ofDecimal_eq]

theorem ofDecimal_eq_of_same (h : d.Same e) : ofDecimal d = ofDecimal e :=
  Nat.le_antisymm (ofDecimal_mono (Nat.le_of_eq h)) (ofDecimal_mono (Nat.le_of_eq h.symm))

theorem ofDecimal_between {rank : Nat} (hde : d.AtMost e) (hef : e.AtMost f)
    (hd : ofDecimal d = rank) (hf : ofDecimal f = rank) : ofDecimal e = rank :=
  Nat.le_antisymm (Nat.le_trans (ofDecimal_mono hef) (Nat.le_of_eq hf))
    (Nat.le_trans (Nat.le_of_eq hd.symm) (ofDecimal_mono hde))

end

private theorem scale_places (n e units : Nat) :
    n * 2 ^ (e - units) * 5 ^ (units - e) * 2 ^ units = n * 2 ^ e * 10 ^ (units - e) := by
  have hten : 10 ^ (units - e) = 5 ^ (units - e) * 2 ^ (units - e) := by
    rw [← Nat.mul_pow]
  have htwo : 2 ^ (e - units) * 2 ^ units = 2 ^ e * 2 ^ (units - e) := by
    rw [← Nat.pow_add, ← Nat.pow_add]
    congr 1
    omega
  calc
    n * 2 ^ (e - units) * 5 ^ (units - e) * 2 ^ units
      = n * (2 ^ (e - units) * 2 ^ units) * 5 ^ (units - e) := by ac_rfl
    _ = n * 2 ^ e * 10 ^ (units - e) := by
        rw [htwo, hten]
        ac_rfl

theorem coefficient_exact (rank : Nat) :
    (exact rank).coefficient * 2 ^ 1074 = magnitude rank * 10 ^ (exact rank).places :=
  scale_places (significand rank) (exponent rank) 1074

theorem ofDecimal_exact {rank : Nat} (h : rank < infinity) : ofDecimal (exact rank) = rank := by
  rw [ofDecimal_eq, coefficient_exact]
  exact nearest_magnitude h (Nat.pow_pos (by decide))

end Reckoner.Binary64
