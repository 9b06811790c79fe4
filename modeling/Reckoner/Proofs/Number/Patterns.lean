import Reckoner.Proofs.Number.Shortest

/-!
Bit patterns of doubles. But for the sign bit a pattern is a rank, which says what kind of double it
is and with which significand and exponent. Negation changes the sign bit, and nothing else. Doubles
are equal in the language if their patterns are, but for NaNs, which equal nothing, and the zeros.
-/
namespace Reckoner.Number

open Binary64
open Float.Model (UnpackedFloat Format)
open Float.Model.UnpackedFloat (Sign unpackMantissa unpackExponent unpackSign packComponents)

def rank (x : Float) : Nat :=
  x.toBits.toNat % 2 ^ 63

def sign (x : Float) : Sign :=
  if x.toBits.toNat < 2 ^ 63 then .positive else .negative

section
variable {x y : Float} {s : Sign} {r : Nat}

theorem rank_lt (x : Float) : rank x < 2 ^ 63 :=
  Nat.mod_lt _ (by decide)

theorem toNat_toBits (x : Float) :
    x.toBits.toNat = (sign x).toBitVec.toNat * 2 ^ 63 + rank x := by
  have hbound := x.toBits.toNat_lt
  unfold sign rank
  split
  · change _ = 0 * 2 ^ 63 + _
    omega
  · change _ = 1 * 2 ^ 63 + _
    omega

theorem toNat_toBits_eq_iff (hr : r < 2 ^ 63) :
    x.toBits.toNat = s.toBitVec.toNat * 2 ^ 63 + r ↔ sign x = s ∧ rank x = r := by
  constructor
  · intro h
    unfold sign rank
    cases s with
    | positive =>
      change _ = 0 * 2 ^ 63 + r at h
      exact ⟨if_pos (by omega), by omega⟩
    | negative =>
      change _ = 1 * 2 ^ 63 + r at h
      exact ⟨if_neg (by omega), by omega⟩
  · rintro ⟨rfl, rfl⟩
    exact toNat_toBits x

theorem eq_iff_sign_rank : x = y ↔ sign x = sign y ∧ rank x = rank y := by
  constructor
  · rintro rfl
    exact ⟨rfl, rfl⟩
  · rintro ⟨hs, hr⟩
    apply toBits_inj
    apply UInt64.toNat_inj.1
    rw [toNat_toBits, toNat_toBits, hs, hr]

theorem sign_rank_of_le_infinity (h : x.toBits.toNat ≤ infinity) :
    sign x = .positive ∧ rank x = x.toBits.toNat := by
  have hlt : x.toBits.toNat < 2 ^ 63 := Nat.lt_of_le_of_lt h (by decide)
  exact ⟨if_pos hlt, Nat.mod_eq_of_lt hlt⟩

/-! The fields of a pattern. -/

theorem toNat_unpackMantissa (x : Float) :
    (@unpackMantissa Format.binary64 x.toBits.toBitVec).toNat = rank x % 2 ^ 52 := by
  have hbits : (@unpackMantissa Format.binary64 x.toBits.toBitVec).toNat =
      x.toBits.toNat % 2 ^ 52 := by
    simp [unpackMantissa, BitVec.extractLsb]
  rw [hbits, rank]
  omega

theorem toNat_unpackExponent (x : Float) :
    (@unpackExponent Format.binary64 x.toBits.toBitVec).toNat = rank x / 2 ^ 52 := by
  have hbits : (@unpackExponent Format.binary64 x.toBits.toBitVec).toNat =
      x.toBits.toNat / 2 ^ 52 % 2 ^ 11 := by
    simp [unpackExponent, BitVec.extractLsb, Nat.shiftRight_eq_div_pow]
  rw [hbits, rank]
  omega

theorem ofBitVec_unpackSign (x : Float) :
    Sign.ofBitVec (@unpackSign Format.binary64 x.toBits.toBitVec) = sign x := by
  have hbit : (@unpackSign Format.binary64 x.toBits.toBitVec).toNat =
      x.toBits.toNat / 2 ^ 63 % 2 := by
    change (BitVec.extractLsb 63 63 x.toBits.toBitVec).toNat = _
    simp [BitVec.extractLsb, Nat.shiftRight_eq_div_pow]
  have hbound := x.toBits.toNat_lt
  have hzero : @unpackSign Format.binary64 x.toBits.toBitVec = 0#1 ↔
      x.toBits.toNat < 2 ^ 63 := by
    rw [← BitVec.toNat_inj, hbit, BitVec.toNat_ofNat]
    omega
  simp only [Sign.ofBitVec, sign, hzero]

theorem toNat_packComponents (s : Sign) (e : BitVec 11) (m : BitVec 52) :
    (packComponents Format.binary64 s e m).toNat =
      s.toBitVec.toNat * 2 ^ 63 + e.toNat * 2 ^ 52 + m.toNat := by
  unfold packComponents
  rw [BitVec.toNat_append, BitVec.toNat_append, ← Nat.shiftLeft_add_eq_or_of_lt m.isLt,
    ← Nat.shiftLeft_add_eq_or_of_lt e.isLt, Nat.shiftLeft_eq, Nat.shiftLeft_eq]
  omega

theorem unpackExponent_eq_neg_one_iff :
    @unpackExponent Format.binary64 x.toBits.toBitVec = -1#11 ↔ infinity ≤ rank x := by
  have hlt := rank_lt x
  rw [← BitVec.toNat_inj, toNat_unpackExponent]
  change rank x / 2 ^ 52 = 2047 ↔ _
  simp only [infinity_eq]
  omega

theorem unpackExponent_eq_zero_iff :
    @unpackExponent Format.binary64 x.toBits.toBitVec = 0#11 ↔ rank x < 2 ^ 52 := by
  rw [← BitVec.toNat_inj, toNat_unpackExponent]
  change rank x / 2 ^ 52 = 0 ↔ _
  omega

theorem unpackMantissa_eq_zero_iff :
    @unpackMantissa Format.binary64 x.toBits.toBitVec = 0#52 ↔ rank x % 2 ^ 52 = 0 := by
  rw [← BitVec.toNat_inj, toNat_unpackMantissa]
  rfl

theorem toNat_append_unpackMantissa (x : Float) :
    (1#1 ++ @unpackMantissa Format.binary64 x.toBits.toBitVec).toNat =
      2 ^ 52 + rank x % 2 ^ 52 := by
  rw [BitVec.toNat_append, ← Nat.shiftLeft_add_eq_or_of_lt (BitVec.isLt _), toNat_unpackMantissa]
  rfl

/-! What a double is unpacked into. -/

theorem significand_pos (h : r ≠ 0) : 0 < significand r := by
  rw [significand_eq]
  split <;> omega

theorem unpack_of_zero (h : rank x = 0) : x.toModel.unpack = .zero (sign x) := by
  have hne := mt (@unpackExponent_eq_neg_one_iff x).1 (by rw [h]; decide)
  have he := (@unpackExponent_eq_zero_iff x).2 (by rw [h]; decide)
  have hm := (@unpackMantissa_eq_zero_iff x).2 (by rw [h]; decide)
  change UnpackedFloat.unpack Format.binary64 x.toBits.toBitVec = _
  unfold UnpackedFloat.unpack
  dsimp only
  rw [if_neg hne, if_pos he, dif_pos hm, ofBitVec_unpackSign]

theorem unpack_of_finite (h : rank x < infinity) (hpos : rank x ≠ 0) :
    x.toModel.unpack = .finite (sign x) (significand (rank x)) (exponent (rank x) - 1074)
      (significand_pos hpos) := by
  have hne := mt (@unpackExponent_eq_neg_one_iff x).1 (Nat.not_le.2 h)
  have hbias : Format.binary64.exponentBias = 1023 := rfl
  change UnpackedFloat.unpack Format.binary64 x.toBits.toBitVec = _
  unfold UnpackedFloat.unpack
  dsimp only
  rw [if_neg hne]
  by_cases hsub : rank x < 2 ^ 52
  · have hm := mt (@unpackMantissa_eq_zero_iff x).1 (by omega)
    rw [if_pos (unpackExponent_eq_zero_iff.2 hsub), dif_neg hm, ofBitVec_unpackSign,
      UnpackedFloat.finite.injEq, toNat_unpackMantissa, toNat_unpackExponent, hbias,
      significand_subnormal hsub, exponent_subnormal hsub]
    exact ⟨rfl, by omega, by omega⟩
  · rw [if_neg (mt unpackExponent_eq_zero_iff.1 hsub), ofBitVec_unpackSign,
      UnpackedFloat.finite.injEq]
    refine ⟨rfl, (toNat_append_unpackMantissa x).trans ?_, ?_⟩
    · rw [significand_eq, if_neg hsub]
    · rw [toNat_unpackExponent, hbias, exponent_eq]
      omega

theorem unpack_of_infinity (h : rank x = infinity) : x.toModel.unpack = .infinity (sign x) := by
  have he := unpackExponent_eq_neg_one_iff.2 (Nat.le_of_eq h.symm)
  have hm := (@unpackMantissa_eq_zero_iff x).2 (by rw [h]; decide)
  change UnpackedFloat.unpack Format.binary64 x.toBits.toBitVec = _
  unfold UnpackedFloat.unpack
  dsimp only
  rw [if_pos he, if_pos hm, ofBitVec_unpackSign]

theorem unpack_of_nan (h : infinity < rank x) : x.toModel.unpack = .notANumber := by
  have hlt := rank_lt x
  have he := unpackExponent_eq_neg_one_iff.2 (Nat.le_of_lt h)
  simp only [infinity_eq] at h
  have hm := mt (@unpackMantissa_eq_zero_iff x).1 (by omega)
  change UnpackedFloat.unpack Format.binary64 x.toBits.toBitVec = _
  unfold UnpackedFloat.unpack
  dsimp only
  rw [if_pos he, if_neg hm]

theorem unpack_cases (x : Float) :
    (rank x = 0 ∧ x.toModel.unpack = .zero (sign x)) ∨
    (rank x < infinity ∧ ∃ hpos : rank x ≠ 0, x.toModel.unpack =
      .finite (sign x) (significand (rank x)) (exponent (rank x) - 1074) (significand_pos hpos)) ∨
    (rank x = infinity ∧ x.toModel.unpack = .infinity (sign x)) ∨
    (infinity < rank x ∧ x.toModel.unpack = .notANumber) := by
  rcases Nat.lt_trichotomy (rank x) infinity with h | h | h
  · by_cases hpos : rank x = 0
    · exact .inl ⟨hpos, unpack_of_zero hpos⟩
    · exact .inr (.inl ⟨h, hpos, unpack_of_finite h hpos⟩)
  · exact .inr (.inr (.inl ⟨h, unpack_of_infinity h⟩))
  · exact .inr (.inr (.inr ⟨h, unpack_of_nan h⟩))

theorem isNaN_iff : x.isNaN ↔ infinity < rank x := by
  change x.toModel.unpack.isNaN ↔ _
  rcases unpack_cases x with ⟨h, hu⟩ | ⟨h, _, hu⟩ | ⟨h, hu⟩ | ⟨h, hu⟩ <;> rw [hu]
  · exact iff_of_false Bool.false_ne_true (by omega)
  · exact iff_of_false Bool.false_ne_true (by omega)
  · exact iff_of_false Bool.false_ne_true (by omega)
  · exact iff_of_true rfl h

theorem not_isNaN_of_le_infinity (h : x.toBits.toNat ≤ infinity) : ¬ x.isNaN := by
  rw [isNaN_iff, (sign_rank_of_le_infinity h).2]
  exact Nat.not_lt.2 h

/-! Negation. -/

theorem significand_lt (r : Nat) : significand r < 2 ^ 53 := by
  rw [significand_eq]
  split <;> omega

theorem log2_significand_iff (hpos : r ≠ 0) :
    (significand r).log2 + 1 = Format.binary64.mantissaBits ↔ 2 ^ 52 ≤ r := by
  change (significand r).log2 + 1 = 53 ↔ _
  have hne := Nat.ne_of_gt (significand_pos hpos)
  have hlt := (Nat.log2_lt hne).2 (significand_lt r)
  have hle := @Nat.le_log2 (significand r) 52 hne
  have hnormal : 2 ^ 52 ≤ significand r ↔ 2 ^ 52 ≤ r := by
    rw [significand_eq]
    split <;> omega
  omega

theorem toNat_pack_finite (hr : r < infinity) (hpos : r ≠ 0) :
    (UnpackedFloat.pack Format.binary64
      (.finite s (significand r) (exponent r - 1074) (significand_pos hpos))).toNat =
        s.toBitVec.toNat * 2 ^ 63 + r := by
  simp only [infinity_eq] at hr
  have hbias : Format.binary64.exponentBias = 1023 := rfl
  have hbiased : ((exponent r : Int) - 1074 + (1023 : Nat) + (52 : Nat)).toNat =
      exponent r + 1 := by
    omega
  have hfits : ¬ 2 ^ 11 ≤ exponent r + 1 + 1 := by
    rw [exponent_eq]
    omega
  unfold UnpackedFloat.pack
  dsimp only
  rw [hbias, hbiased, if_neg hfits]
  by_cases hsub : r < 2 ^ 52
  · rw [if_neg (mt (log2_significand_iff hpos).1 (Nat.not_le.2 hsub)), toNat_packComponents,
      significand_subnormal hsub, BitVec.toNat_ofNat, BitVec.toNat_ofNat]
    omega
  · rw [if_pos ((log2_significand_iff hpos).2 (Nat.le_of_not_lt hsub)), toNat_packComponents,
      BitVec.toNat_ofNat, BitVec.toNat_ofNat]
    simp only [significand_eq, if_neg hsub, exponent_eq]
    omega

theorem sign_rank_neg (h : ¬ x.isNaN) : sign (-x) = -sign x ∧ rank (-x) = rank x := by
  rw [← toNat_toBits_eq_iff (rank_lt x)]
  change (UnpackedFloat.pack Format.binary64 x.toModel.unpack.neg).toNat = _
  rcases unpack_cases x with ⟨hr, hu⟩ | ⟨hr, hpos, hu⟩ | ⟨hr, hu⟩ | ⟨hr, _⟩
  · rw [hu, hr]
    cases sign x <;> decide
  · rw [hu]
    exact toNat_pack_finite hr hpos
  · rw [hu, hr]
    cases sign x <;> decide
  · exact absurd (isNaN_iff.2 hr) h

theorem toBits_neg (h : ¬ x.isNaN) : (-x).toBits = x.toBits ^^^ 0x8000000000000000 := by
  obtain ⟨hs, hr⟩ := sign_rank_neg h
  apply UInt64.toNat_inj.1
  rw [toNat_toBits (-x), hs, hr, UInt64.toNat_xor]
  change _ = x.toBits.toNat ^^^ 2 ^ 63
  have hrest : (x.toBits.toNat ^^^ 2 ^ 63) % 2 ^ 63 = rank x := by
    rw [Nat.xor_mod_two_pow, Nat.mod_self, Nat.xor_zero, rank]
  have hfirst : (x.toBits.toNat ^^^ 2 ^ 63) / 2 ^ 63 = (-sign x).toBitVec.toNat := by
    have hbound := x.toBits.toNat_lt
    rw [Nat.xor_div_two_pow, sign]
    split
    next hclear =>
      rw [Nat.div_eq_of_lt hclear]
      decide
    next hset =>
      have hone : x.toBits.toNat / 2 ^ 63 = 1 := by omega
      rw [hone]
      decide
  rw [← Nat.div_add_mod (x.toBits.toNat ^^^ 2 ^ 63) (2 ^ 63), hfirst, hrest, Nat.mul_comm]

/-! Comparison. -/

theorem then_eq_eq_iff {m m' : Nat} {e e' : Int} :
    (compare e e').then (compare m m') = .eq ↔ e = e' ∧ m = m' := by
  rw [Ordering.then_eq_eq, Std.compare_eq_iff_eq, Std.compare_eq_iff_eq]

theorem compare_eq_eq_iff {u v : UnpackedFloat} :
    u.compare v = some .eq ↔
      u = v ∧ u ≠ .notANumber ∨ ∃ s t, u = .zero s ∧ v = .zero t := by
  constructor
  · intro h
    cases u with
    | notANumber => cases h
    | infinity s =>
      cases v with
      | infinity t => cases s <;> cases t <;> cases h <;> exact .inl ⟨rfl, nofun⟩
      | notANumber | zero | finite => cases s <;> cases h
    | zero s =>
      cases v with
      | zero t => exact .inr ⟨s, t, rfl, rfl⟩
      | notANumber => cases h
      | infinity t | finite t => cases t <;> cases h
    | finite s m e =>
      cases v with
      | finite t m' e' =>
        cases s with
        | positive =>
          cases t with
          | positive =>
            obtain ⟨rfl, rfl⟩ := then_eq_eq_iff.1 (Option.some.inj h)
            exact .inl ⟨rfl, nofun⟩
          | negative => cases h
        | negative =>
          cases t with
          | positive => cases h
          | negative =>
            obtain ⟨rfl, rfl⟩ := then_eq_eq_iff.1 (Ordering.swap_eq_eq.1 (Option.some.inj h))
            exact .inl ⟨rfl, nofun⟩
      | notANumber | zero => cases s <;> cases h
      | infinity t => cases s <;> cases t <;> cases h
  · rintro (⟨rfl, hne⟩ | ⟨s, t, rfl, rfl⟩)
    · cases u with
      | notANumber => exact absurd rfl hne
      | infinity s => cases s <;> rfl
      | zero => rfl
      | finite s m e =>
        have heq := then_eq_eq_iff.2 ⟨@rfl _ e, @rfl _ m⟩
        cases s with
        | positive => exact congrArg some heq
        | negative => exact congrArg some (Ordering.swap_eq_eq.2 heq)
    · rfl

theorem unpack_eq_notANumber_iff : x.toModel.unpack = .notANumber ↔ x.isNaN := by
  change _ ↔ x.toModel.unpack.isNaN
  cases x.toModel.unpack with
  | notANumber => exact iff_of_true rfl rfl
  | _ => exact iff_of_false nofun Bool.false_ne_true

theorem unpack_eq_zero_iff : (∃ s, x.toModel.unpack = .zero s) ↔ rank x = 0 := by
  rcases unpack_cases x with ⟨h, hu⟩ | ⟨_, h, hu⟩ | ⟨h, hu⟩ | ⟨h, hu⟩ <;> rw [hu]
  · exact iff_of_true ⟨_, rfl⟩ h
  · exact iff_of_false nofun h
  · exact iff_of_false nofun (by rw [h]; decide)
  · exact iff_of_false nofun (by omega)

theorem eq_of_unpack_eq (hx : ¬ x.isNaN) (h : x.toModel.unpack = y.toModel.unpack) : x = y := by
  have hy : ¬ y.isNaN := by
    rwa [← unpack_eq_notANumber_iff, ← h, unpack_eq_notANumber_iff]
  have hneg : -x = -y := by
    change Float.ofModel (.pack x.toModel.unpack.neg) = .ofModel (.pack y.toModel.unpack.neg)
    rw [h]
  obtain ⟨hsx, hrx⟩ := sign_rank_neg hx
  obtain ⟨hsy, hry⟩ := sign_rank_neg hy
  have hsign : -sign x = -sign y := by
    rw [← hsx, hneg, hsy]
  refine eq_iff_sign_rank.2 ⟨?_, by rw [← hrx, hneg, hry]⟩
  revert hsign
  cases sign x <;> cases sign y <;> simp [Neg.neg]

theorem beq_iff : x == y ↔ x = y ∧ ¬ x.isNaN ∨ rank x = 0 ∧ rank y = 0 := by
  change (x.toModel.unpack.compare y.toModel.unpack == some .eq) = true ↔ _
  rw [beq_iff_eq, compare_eq_eq_iff, Ne, unpack_eq_notANumber_iff, ← unpack_eq_zero_iff,
    ← unpack_eq_zero_iff]
  constructor
  · rintro (⟨heq, hx⟩ | ⟨s, t, hx, hy⟩)
    · exact .inl ⟨eq_of_unpack_eq hx heq, hx⟩
    · exact .inr ⟨⟨s, hx⟩, t, hy⟩
  · rintro (⟨rfl, hx⟩ | ⟨⟨s, hx⟩, t, hy⟩)
    · exact .inl ⟨rfl, hx⟩
    · exact .inr ⟨s, t, hx, hy⟩

/-- The same double, but for the sign of a zero. -/
def normal (x : Float) : Float :=
  if rank x = 0 then toFloat 0 (Nat.zero_le _) else x

theorem rank_normal (x : Float) : rank (normal x) = rank x := by
  unfold normal
  split
  next h =>
    rw [h, rank, toBits_toFloat]
    rfl
  next => rfl

theorem isNaN_normal : (normal x).isNaN ↔ x.isNaN := by
  rw [isNaN_iff, isNaN_iff, rank_normal]

theorem normal_of_le_infinity (h : x.toBits.toNat ≤ infinity) : normal x = x := by
  unfold normal
  split
  next hzero =>
    rw [toFloat_eq_iff, ← (sign_rank_of_le_infinity h).2, hzero]
  next => rfl

theorem beq_iff_normal : x == y ↔ normal x = normal y ∧ ¬ x.isNaN := by
  have hranks (heq : normal x = normal y) : rank x = rank y := by
    rw [← rank_normal x, heq, rank_normal]
  rw [beq_iff, isNaN_iff]
  constructor
  · rintro (⟨rfl, hx⟩ | ⟨hx, hy⟩)
    · exact ⟨rfl, hx⟩
    · simp [normal, hx, hy]
  · rintro ⟨heq, hx⟩
    by_cases hzero : rank x = 0
    · exact .inr ⟨hzero, (hranks heq).symm.trans hzero⟩
    · have hzero' : ¬ rank y = 0 := hranks heq ▸ hzero
      rw [normal, normal, if_neg hzero, if_neg hzero'] at heq
      exact .inl ⟨heq, hx⟩

end
end Reckoner.Number
