import Reckoner.Proofs.Number.Nearest
import Reckoner.Proofs.Token.Spacing

/-!
Literals of number tokens. Digits with or without a fraction are one token, whose literal is the
decimal that they spell, rounded.
-/
namespace Reckoner

theorem Lexes.of_mem_scan {lexeme : List Char} {kind : Kind} {literal : Option Value}
    (h : Lexes lexeme kind literal) {source : String} {t : Token}
    (ht : t ∈ (scan source).tokens) (hlexeme : t.lexeme = String.ofList lexeme) :
    t.kind = kind ∧ t.literal = literal := by
  rcases mem_scan_tokens.1 ht with ht | rfl
  · have hlexical := lexical_of_mem_scanned ht
    rw [Token.Lexical, hlexeme, String.toList_ofList] at hlexical
    exact hlexical.unique h
  · have hnil := congrArg String.toList hlexeme
    rw [String.toList_ofList] at hnil
    exact absurd hnil.symm h.ne_nil

namespace Number

section
variable {whole fraction : List Char} (hwhole : IsDigits whole)
  (hfraction : ∀ c ∈ fraction, c.isDigit)
include hwhole hfraction

theorem scan_digits :
    let text := String.ofList (whole ++ Decimal.pointed fraction)
    let stop := (whole ++ Decimal.pointed fraction).length
    scan text =
      ⟨[⟨.number, text, some (.number (ofDecimal (.ofDigits whole fraction))), 1, ⟨0, stop⟩⟩,
        ⟨.eof, "", none, 1, ⟨stop, stop⟩⟩], []⟩ := by
  have hlexes := Lexes.number hwhole hfraction
  have hlexeme := @Tokenises.lexeme [] _ _ _ hlexes hlexes.newline_notMem
  rw [List.length_nil, Nat.zero_add] at hlexeme
  apply scan_of_tokenises
  rwa [String.toList_ofList]

theorem lexes_zeros (m n : Nat) :
    Lexes (List.replicate m '0' ++ whole ++ Decimal.pointed (fraction ++ List.replicate n '0'))
      .number (some (.number (ofDecimal (.ofDigits whole fraction)))) := by
  have hzeros (k : Nat) : ∀ c ∈ List.replicate k '0', c.isDigit := by
    intro c hc
    rw [List.eq_of_mem_replicate hc]
    rfl
  rw [← ofDecimal_eq_of_rational_eq (Decimal.rational_ofDigits_zeros whole fraction m n)]
  refine Lexes.number ⟨by simp [hwhole.1], ?_⟩ ?_
  · exact List.forall_mem_append.2 ⟨hzeros m, hwhole.2⟩
  · exact List.forall_mem_append.2 ⟨hfraction, hzeros n⟩

end

/-- Number literals are correctly rounded. Digits with or without a fraction are scanned into one
number token, whose literal is the double nearest to the rational number that the digits spell, a
tie going to the even significand. It is infinite from half a step above the largest double on, and
zero up to half of the least positive one, and its sign bit is clear. Wherever a token has these
digits it has this literal, also with zeros in front of them or behind the fraction, and a token
whose digits spell a larger number has no smaller literal. -/
theorem literal_correctlyRounded {whole fraction : List Char} (hwhole : IsDigits whole)
    (hfraction : ∀ c ∈ fraction, c.isDigit) :
    let text := String.ofList (whole ++ Decimal.pointed fraction)
    let stop := (whole ++ Decimal.pointed fraction).length
    let q : ℚ :=
      Nat.ofDigitChars 10 whole 0 + Nat.ofDigitChars 10 fraction 0 / 10 ^ fraction.length
    let x := ofDecimal (.ofDigits whole fraction)
    scan text =
        ⟨[⟨.number, text, some (.number x), 1, ⟨0, stop⟩⟩, ⟨.eof, "", none, 1, ⟨stop, stop⟩⟩], []⟩ ∧
      (q < 2 ^ 1024 - 2 ^ 970 → IsNearest q x) ∧
      (x.isInf ↔ 2 ^ 1024 - 2 ^ 970 ≤ q) ∧
      (x.toBits = 0 ↔ q ≤ 1 / 2 ^ 1075) ∧
      x.toBits.toNat < 2 ^ 63 ∧ ¬ x.isNaN ∧
      (∀ m n source, ∀ t ∈ (scan source).tokens,
        t.lexeme = String.ofList (List.replicate m '0' ++ whole ++
          Decimal.pointed (fraction ++ List.replicate n '0')) →
        t.kind = .number ∧ t.literal = some (.number x)) ∧
      ∀ whole' fraction', IsDigits whole' → (∀ c ∈ fraction', c.isDigit) →
        q ≤ Nat.ofDigitChars 10 whole' 0 +
          Nat.ofDigitChars 10 fraction' 0 / 10 ^ fraction'.length →
        ∀ source, ∀ t ∈ (scan source).tokens,
          t.lexeme = String.ofList (whole' ++ Decimal.pointed fraction') →
          ∃ y, t.literal = some (.number y) ∧ x ≤ y := by
  intro text stop q x
  have hq : (Decimal.ofDigits whole fraction).rational = q :=
    Decimal.rational_ofDigits whole fraction
  have hbits := toBits_ofDecimal_le (.ofDigits whole fraction)
  rw [← hq]
  refine ⟨scan_digits hwhole hfraction, isNearest_ofDecimal,
    isInf_ofDecimal_iff, toBits_ofDecimal_eq_zero_iff, Nat.lt_of_le_of_lt hbits (by decide),
    not_isNaN_of_le_infinity hbits, fun m n source t ht hlexeme => ?_,
    fun whole' fraction' hwhole' hfraction' hle source t ht hlexeme => ?_⟩
  · exact (lexes_zeros hwhole hfraction m n).of_mem_scan ht hlexeme
  · refine ⟨_, ((Lexes.number hwhole' hfraction').of_mem_scan ht hlexeme).2, ofDecimal_le ?_⟩
    rw [Decimal.rational_ofDigits whole']
    exact hle

/-- Half-way between `2 ^ 53` and the next double, whose significand is odd. -/
theorem literal_correctlyRounded_of_tie :
    ∃ x, x.toBits = 0x4340000000000000 ∧ IsNearest 9007199254740993 x ∧
      scan "9007199254740993.0" =
        ⟨[⟨.number, "9007199254740993.0", some (.number x), 1, ⟨0, 18⟩⟩,
          ⟨.eof, "", none, 1, ⟨18, 18⟩⟩], []⟩ := by
  have hwhole : IsDigits "9007199254740993".toList :=
    ⟨by decide, List.all_eq_true.1 (by decide)⟩
  obtain ⟨hscan, hnearest, _⟩ :=
    @literal_correctlyRounded "9007199254740993".toList ['0'] hwhole
      (List.all_eq_true.1 (by decide))
  have hq : (Nat.ofDigitChars 10 "9007199254740993".toList 0 : ℚ) +
      Nat.ofDigitChars 10 ['0'] 0 / 10 ^ ['0'].length = 9007199254740993 := by
    have hvalue : Nat.ofDigitChars 10 "9007199254740993".toList 0 = 9007199254740993 := by
      decide +kernel
    have hzero : Nat.ofDigitChars 10 ['0'] 0 = 0 := by decide
    rw [hvalue, hzero]
    norm_num
  have hbound : (9007199254740993 : ℚ) < 2 ^ 1024 - 2 ^ 970 := by
    have htop : (2 : ℚ) ^ 1024 = 2 ^ 54 * 2 ^ 970 := pow_add 2 54 970
    have hone : (1 : ℚ) ≤ 2 ^ 970 := one_le_pow₀ one_le_two
    rw [htop]
    generalize (2 : ℚ) ^ 970 = step at hone
    linarith
  rw [hq] at hnearest
  refine ⟨_, ?_, hnearest hbound, hscan⟩
  decide +kernel

end Number
end Reckoner
