import Mathlib.Algebra.Group.Nat.Defs
import Reckoner.Number

/-!
The text of a decimal: its digits, and that they spell the decimal they were written for. Zeros in
front of all other digits and behind them are not significant; the other digits are the fewest that
spell the decimal.
-/
namespace Reckoner.Decimal

def Same (d e : Decimal) : Prop :=
  d.coefficient * 10 ^ e.places = e.coefficient * 10 ^ d.places

def AtMost (d e : Decimal) : Prop :=
  d.coefficient * 10 ^ e.places ≤ e.coefficient * 10 ^ d.places

theorem toDigits_pow_add (places n : Nat) (h : n < 10 ^ places) :
    ∃ digits, Nat.toDigits 10 (10 ^ places + n) = '1' :: digits ∧ digits.length = places ∧
      Nat.ofDigitChars 10 digits 0 = n := by
  induction places generalizing n with
  | zero =>
    obtain rfl : n = 0 := by omega
    exact ⟨[], by simp [Nat.toDigits_of_lt_base], rfl, rfl⟩
  | succ places ih =>
    obtain ⟨digits, hdigits, hlength, hvalue⟩ := ih (n / 10) (by omega)
    have hsplit : 10 ^ (places + 1) + n = 10 * (10 ^ places + n / 10) + n % 10 := by omega
    have hlast : n % 10 < 10 := Nat.mod_lt n (by decide)
    refine ⟨digits ++ [Nat.digitChar (n % 10)], ?_, by simp [hlength], ?_⟩
    · rw [hsplit, ← Nat.toDigits_append_toDigits (by decide) (by omega) hlast, hdigits,
        Nat.toDigits_of_lt_base hlast]
      rfl
    · rw [Nat.ofDigitChars_append, hvalue, Nat.ofDigitChars_cons_digitChar_of_lt_ten hlast,
        Nat.ofDigitChars_nil]
      omega

theorem length_fractionDigits (d : Decimal) : d.fractionDigits.length = d.places := by
  obtain ⟨digits, hdigits, hlength, _⟩ :=
    toDigits_pow_add d.places (d.coefficient % 10 ^ d.places)
      (Nat.mod_lt _ (Nat.pow_pos (by decide)))
  simp [fractionDigits, hdigits, hlength]

theorem ofDigitChars_fractionDigits (d : Decimal) :
    Nat.ofDigitChars 10 d.fractionDigits 0 = d.coefficient % 10 ^ d.places := by
  obtain ⟨digits, hdigits, _, hvalue⟩ :=
    toDigits_pow_add d.places (d.coefficient % 10 ^ d.places)
      (Nat.mod_lt _ (Nat.pow_pos (by decide)))
  simp [fractionDigits, hdigits, hvalue]

theorem isDigit_of_mem_fractionDigits {d : Decimal} {c : Char} (h : c ∈ d.fractionDigits) :
    c.isDigit :=
  Nat.isDigit_of_mem_toDigits (by decide) (by decide) (List.mem_of_mem_drop h)

theorem takeWhile_zeros (digits : List Char) : ∃ zeros,
    List.replicate zeros '0' ++ digits.dropWhile (· == '0') = digits := by
  have hzeros : digits.takeWhile (· == '0') =
      List.replicate (digits.takeWhile (· == '0')).length '0' := by
    apply List.eq_replicate_of_mem
    intro c hc
    simpa using List.all_eq_true.1 List.all_takeWhile c hc
  refine ⟨(digits.takeWhile (· == '0')).length, ?_⟩
  rw [← hzeros, List.takeWhile_append_dropWhile]

theorem head?_dropWhile_zeros (digits : List Char) :
    (digits.dropWhile (· == '0')).head? ≠ some '0' := by
  intro h
  have hnot := List.head?_dropWhile_not (· == '0') digits
  rw [h] at hnot
  cases hnot

theorem trimZeros_append (digits : List Char) :
    ∃ zeros, trimZeros digits ++ List.replicate zeros '0' = digits := by
  obtain ⟨zeros, hzeros⟩ := takeWhile_zeros digits.reverse
  refine ⟨zeros, ?_⟩
  rw [trimZeros, ← List.reverse_replicate, ← List.reverse_append, hzeros, List.reverse_reverse]

theorem mem_of_mem_trimZeros {digits : List Char} {c : Char} (h : c ∈ trimZeros digits) :
    c ∈ digits := by
  obtain ⟨zeros, hzeros⟩ := trimZeros_append digits
  rw [← hzeros]
  exact List.mem_append_left _ h

theorem getLast?_trimZeros (digits : List Char) : (trimZeros digits).getLast? ≠ some '0' := by
  rw [trimZeros, List.getLast?_reverse]
  exact head?_dropWhile_zeros digits.reverse

def wholeDigits (d : Decimal) : List Char :=
  Nat.toDigits 10 (d.coefficient / 10 ^ d.places)

def pointed : List Char → List Char
  | [] => []
  | fraction => '.' :: fraction

theorem toList_text (d : Decimal) :
    d.text.toList = d.wholeDigits ++ pointed (trimZeros d.fractionDigits) := by
  unfold text
  cases trimZeros d.fractionDigits <;> simp [wholeDigits, pointed]

theorem same_ofDigits (d : Decimal) :
    Same (ofDigits d.wholeDigits (trimZeros d.fractionDigits)) d := by
  obtain ⟨zeros, hzeros⟩ := trimZeros_append d.fractionDigits
  have hlength := d.length_fractionDigits
  rw [← hzeros, List.length_append, List.length_replicate] at hlength
  have hvalue : Nat.ofDigitChars 10 (d.wholeDigits ++ d.fractionDigits) 0 = d.coefficient := by
    rw [Nat.ofDigitChars_append, wholeDigits, Nat.ofDigitChars_ten_toDigits,
      Nat.ofDigitChars_eq_ofDigitChars_zero, ofDigitChars_fractionDigits, length_fractionDigits]
    exact Nat.div_add_mod _ _
  rw [← hzeros, ← List.append_assoc, Nat.ofDigitChars_append,
    Nat.ofDigitChars_replicate_zero] at hvalue
  calc
    Nat.ofDigitChars 10 (d.wholeDigits ++ trimZeros d.fractionDigits) 0 * 10 ^ d.places
      = 10 ^ zeros * Nat.ofDigitChars 10 (d.wholeDigits ++ trimZeros d.fractionDigits) 0 *
          10 ^ (trimZeros d.fractionDigits).length := by
        rw [← hlength, Nat.pow_add]
        ac_rfl
    _ = d.coefficient * 10 ^ (trimZeros d.fractionDigits).length := by rw [hvalue]

section
variable {digits rest : List Char} {c : Char}

theorem digit_lt (h : c.isDigit) : c.toNat - '0'.toNat < 10 := by
  have hrange := Char.isDigit_iff_toNat.1 h
  simp only [Char.reduceToNat] at hrange ⊢
  omega

theorem digit_pos (h : c.isDigit) (hc : c ≠ '0') : 0 < c.toNat - '0'.toNat := by
  have hrange := Char.isDigit_iff_toNat.1 h
  have hne : c.toNat ≠ '0'.toNat := fun heq => hc (Char.toNat_inj.1 heq)
  omega

theorem ofDigitChars_cons_zero : Nat.ofDigitChars 10 (c :: rest) 0 =
    10 ^ rest.length * (c.toNat - '0'.toNat) + Nat.ofDigitChars 10 rest 0 := by
  rw [Nat.ofDigitChars_cons, Nat.ofDigitChars_eq_ofDigitChars_zero, Nat.mul_zero, Nat.zero_add]

theorem ofDigitChars_lt (h : ∀ c ∈ digits, c.isDigit) :
    Nat.ofDigitChars 10 digits 0 < 10 ^ digits.length := by
  induction digits with
  | nil => decide
  | cons c rest ih =>
    obtain ⟨hc, hrest⟩ := List.forall_mem_cons.1 h
    calc
      Nat.ofDigitChars 10 (c :: rest) 0
        < 10 ^ rest.length * (c.toNat - '0'.toNat) + 10 ^ rest.length := by
          rw [ofDigitChars_cons_zero]
          exact Nat.add_lt_add_left (ih hrest) _
      _ = 10 ^ rest.length * (c.toNat - '0'.toNat + 1) := (Nat.mul_succ _ _).symm
      _ ≤ 10 ^ rest.length * 10 := Nat.mul_le_mul_left _ (digit_lt hc)

theorem le_ofDigitChars_cons (h : c.isDigit) (hc : c ≠ '0') :
    10 ^ rest.length ≤ Nat.ofDigitChars 10 (c :: rest) 0 := by
  rw [ofDigitChars_cons_zero]
  exact Nat.le_trans (Nat.le_mul_of_pos_right _ (digit_pos h hc)) (Nat.le_add_right _ _)

theorem ofDigitChars_concat_mod (h : c.isDigit) (hc : c ≠ '0') :
    Nat.ofDigitChars 10 (rest ++ [c]) 0 % 10 ≠ 0 := by
  have hpos := digit_pos h hc
  have hlt := digit_lt h
  rw [Nat.ofDigitChars_append, Nat.ofDigitChars_cons, Nat.ofDigitChars_nil]
  omega

theorem ofDigitChars_trimZeros_mod (h : ∀ c ∈ digits, c.isDigit) (hne : trimZeros digits ≠ []) :
    Nat.ofDigitChars 10 (trimZeros digits) 0 % 10 ≠ 0 := by
  obtain ⟨front, c, hs⟩ := (List.eq_nil_or_concat (trimZeros digits)).resolve_left hne
  rw [List.concat_eq_append] at hs
  have hdigit : c.isDigit := h c (mem_of_mem_trimZeros (by simp [hs]))
  have hc : c ≠ '0' := by
    rintro rfl
    apply getLast?_trimZeros digits
    rw [hs, List.getLast?_concat]
  rw [hs]
  exact ofDigitChars_concat_mod hdigit hc

theorem trimZeros_fractionDigits {d : Decimal} (h : 10 ^ d.places ∣ d.coefficient) :
    trimZeros d.fractionDigits = [] := by
  obtain ⟨zeros, hzeros⟩ := trimZeros_append d.fractionDigits
  have hvalue := ofDigitChars_fractionDigits d
  rw [Nat.mod_eq_zero_of_dvd h, ← hzeros, Nat.ofDigitChars_append,
    Nat.ofDigitChars_replicate_zero] at hvalue
  have hzero := (Nat.mul_eq_zero.1 hvalue).resolve_left (Nat.ne_of_gt (Nat.pow_pos (by decide)))
  refine Decidable.byContradiction fun hne => ?_
  exact ofDigitChars_trimZeros_mod (fun c hc => isDigit_of_mem_fractionDigits hc) hne
    (by rw [hzero])

theorem toDigits_of_head? {n : Nat} (h : (Nat.toDigits 10 n).head? = some '0') :
    Nat.toDigits 10 n = ['0'] := by
  obtain ⟨rest, hdigits⟩ := List.head?_eq_some_iff.1 h
  cases rest with
  | nil => exact hdigits
  | cons c rest =>
    have hrest : ∀ d ∈ c :: rest, d.isDigit := by
      intro d hd
      refine Nat.isDigit_of_mem_toDigits (b := 10) (n := n) (by decide) (by decide) ?_
      rw [hdigits]
      exact List.mem_cons_of_mem _ hd
    have hvalue : n = Nat.ofDigitChars 10 (c :: rest) 0 := by
      calc
        n = Nat.ofDigitChars 10 (Nat.toDigits 10 n) 0 := Nat.ofDigitChars_ten_toDigits.symm
        _ = Nat.ofDigitChars 10 (c :: rest) 0 := by rw [hdigits]; rfl
    have hlength := (Nat.length_toDigits_le_iff (n := n) (k := (c :: rest).length) (by decide)
      (by simp)).2 (hvalue ▸ ofDigitChars_lt hrest)
    rw [hdigits, List.length_cons] at hlength
    exact absurd hlength (Nat.not_succ_le_self _)

/-- The digits without the zeros in front and behind. -/
def significant (digits : List Char) : List Char :=
  trimZeros (digits.dropWhile (· == '0'))

theorem ofDigitChars_significant (digits : List Char) : ∃ zeros,
    Nat.ofDigitChars 10 digits 0 = Nat.ofDigitChars 10 (significant digits) 0 * 10 ^ zeros := by
  obtain ⟨front, hfront⟩ := takeWhile_zeros digits
  obtain ⟨zeros, hzeros⟩ := trimZeros_append (digits.dropWhile (· == '0'))
  refine ⟨zeros, ?_⟩
  calc
    Nat.ofDigitChars 10 digits 0
      = Nat.ofDigitChars 10 (digits.dropWhile (· == '0')) 0 := by
        rw [← hfront, Nat.ofDigitChars_append, Nat.ofDigitChars_replicate_zero, Nat.mul_zero,
          hfront]
    _ = Nat.ofDigitChars 10 (significant digits) 0 * 10 ^ zeros := by
        rw [← hzeros, Nat.ofDigitChars_append, Nat.ofDigitChars_replicate_zero, Nat.mul_comm]
        rfl

theorem mem_of_mem_significant (h : c ∈ significant digits) : c ∈ digits :=
  (List.dropWhile_sublist _).mem (mem_of_mem_trimZeros h)

theorem le_ofDigitChars_significant (h : ∀ c ∈ digits, c.isDigit) (hne : significant digits ≠ []) :
    10 ^ ((significant digits).length - 1) ≤ Nat.ofDigitChars 10 (significant digits) 0 := by
  obtain ⟨c, rest, hs⟩ := List.exists_cons_of_ne_nil hne
  have hdigit : c.isDigit := h c (mem_of_mem_significant (hs ▸ List.mem_cons_self))
  have hc : c ≠ '0' := by
    rintro rfl
    obtain ⟨zeros, hzeros⟩ := trimZeros_append (digits.dropWhile (· == '0'))
    apply head?_dropWhile_zeros digits
    rw [← hzeros, ← significant, hs]
    rfl
  rw [hs]
  exact le_ofDigitChars_cons hdigit hc

/-- At most `k` significant digits: zeros at the end do not count. -/
def Fits (k : Nat) (d : Decimal) : Prop :=
  ∃ m z, m < 10 ^ k ∧ d.coefficient = m * 10 ^ z

theorem fits_ofDigits {whole fraction : List Char} (h : ∀ c ∈ whole ++ fraction, c.isDigit) :
    (ofDigits whole fraction).Fits (significant (whole ++ fraction)).length := by
  obtain ⟨zeros, hzeros⟩ := ofDigitChars_significant (whole ++ fraction)
  exact ⟨_, zeros, ofDigitChars_lt fun c hc => h c (mem_of_mem_significant hc), hzeros⟩

/-- A number that does not end in a zero is the least of those that differ from it by zeros. -/
theorem le_of_mul_pow_eq {v m a b : Nat} (hv : v % 10 ≠ 0) (h : v * 10 ^ a = m * 10 ^ b) :
    v ≤ m := by
  rcases Nat.lt_or_ge a b with hlt | hge
  · obtain ⟨e, rfl⟩ : ∃ e, b = e + 1 + a := ⟨b - a - 1, by omega⟩
    rw [Nat.pow_add, ← Nat.mul_assoc, Nat.pow_succ, ← Nat.mul_assoc] at h
    have hcancel := Nat.eq_of_mul_eq_mul_right (Nat.pow_pos (by decide)) h
    omega
  · obtain ⟨e, rfl⟩ : ∃ e, a = e + b := ⟨a - b, by omega⟩
    rw [Nat.pow_add, ← Nat.mul_assoc] at h
    rw [← Nat.eq_of_mul_eq_mul_right (Nat.pow_pos (by decide)) h]
    exact Nat.le_mul_of_pos_right _ (Nat.pow_pos (by decide))

theorem Fits.length_significant_le {whole fraction : List Char} {d : Decimal} {k : Nat}
    (hd : d.Fits k) (hdigits : ∀ c ∈ whole ++ fraction, c.isDigit)
    (hsame : Same (ofDigits whole fraction) d) :
    (significant (whole ++ fraction)).length ≤ k := by
  obtain ⟨m, z, hm, hcoefficient⟩ := hd
  obtain ⟨zeros, hzeros⟩ := ofDigitChars_significant (whole ++ fraction)
  by_cases hne : significant (whole ++ fraction) = []
  · rw [hne]
    exact Nat.zero_le k
  have hvalue : Nat.ofDigitChars 10 (significant (whole ++ fraction)) 0 *
      10 ^ (zeros + d.places) = m * 10 ^ (z + fraction.length) := by
    calc
      _ = Nat.ofDigitChars 10 (whole ++ fraction) 0 * 10 ^ d.places := by
        rw [hzeros, Nat.pow_add, Nat.mul_assoc]
      _ = d.coefficient * 10 ^ fraction.length := hsame
      _ = m * 10 ^ (z + fraction.length) := by
        rw [hcoefficient, Nat.pow_add, Nat.mul_assoc]
  have hmod := ofDigitChars_trimZeros_mod
    (fun c hc => hdigits c ((List.dropWhile_sublist _).mem hc)) hne
  have hle := le_of_mul_pow_eq hmod hvalue
  have hpow := Nat.lt_of_le_of_lt
    (Nat.le_trans (le_ofDigitChars_significant hdigits hne) hle) hm
  have hlength := (Nat.pow_lt_pow_iff_right (by decide)).1 hpow
  omega

end

end Reckoner.Decimal
