import Reckoner.Proofs.Token.Spacing

/-!
Numbers written and scanned. The text of a finite number is positional, without superfluous zeros
and of the fewest significant digits, and it is scanned back into that number; a set sign bit is
written as a minus sign, which is a token of its own.
-/
namespace Reckoner.Number

open Binary64 Decimal

/-- The text of a number is made of these digits before and behind the point, none of them
superfluous. The number is an integer where its magnitude, which counts units of `2 ^ -1074`, is a
multiple of `2 ^ 1074`. -/
structure Writes (x : Float) (whole fraction : List Char) : Prop where
  text_eq : (Value.number x).text.toList = whole ++ pointed fraction
  whole_digits : IsDigits whole
  fraction_digits : ∀ c ∈ fraction, c.isDigit
  leading : whole.head? = some '0' → whole = ['0']
  trailing : fraction.getLast? ≠ some '0'
  integral : 2 ^ 1074 ∣ magnitude x.toBits.toNat → fraction = []
  /-- No other digits are read as the number with fewer of them significant. -/
  shortest : ∀ whole' fraction', IsDigits whole' → (∀ c ∈ fraction', c.isDigit) →
    ofDecimal (.ofDigits whole' fraction') = x →
    (significant (whole ++ fraction)).length ≤ (significant (whole' ++ fraction')).length

section
variable {x : Float} (h : x.toBits.toNat < infinity)
include h

theorem writes_digits : Writes x (digits x).1 (digits x).2 where
  text_eq := toList_text h
  whole_digits := ⟨whole_ne_nil, fun c hc => isDigit_of_mem_digits (.inl hc)⟩
  fraction_digits := fun c hc => isDigit_of_mem_digits (.inr hc)
  leading := toDigits_of_head?
  trailing := getLast?_trimZeros _
  integral := fun hint => trimZeros_fractionDigits (dvd_coefficient_shortest h hint)
  shortest := by
    intro whole fraction hwhole hfraction hread
    have hdigits : ∀ c ∈ whole ++ fraction, c.isDigit := by
      intro c hc
      exact (List.mem_append.1 hc).elim (hwhole.2 c) (hfraction c)
    have hrank : Binary64.ofDecimal (.ofDigits whole fraction) = x.toBits.toNat := by
      rw [← toBits_ofDecimal, hread]
    have hfits := fits_shortest h (fits_ofDigits hdigits) hrank
    refine hfits.length_significant_le (fun c hc => ?_) (same_ofDigits _)
    exact isDigit_of_mem_digits (List.mem_append.1 hc)

end

def tokens (start : Nat) (x : Float) : List Token :=
  let stop := start + (text x).length
  [⟨.number, text x, some (.number x), 1, ⟨start, stop⟩⟩, ⟨.eof, "", none, 1, ⟨stop, stop⟩⟩]

theorem tokenises_text {x : Float} (h : x.toBits.toNat < infinity) {before : List Char}
    (hbefore : '\n' ∉ before) :
    Tokenises before (text x).toList (tokens before.length x) [] := by
  have hlines : '\n' ∉ before ++ (text x).toList := by
    simp [hbefore, (lexes_text h).newline_notMem]
  have hlexeme := Tokenises.lexeme (lexes_text h) hlines
  rwa [String.ofList_toList, String.length_toList] at hlexeme

theorem scan_text_of_unsigned {x : Float} (h : x.toBits.toNat < infinity) :
    scan (text x) = ⟨tokens 0 x, []⟩ :=
  scan_of_tokenises (tokenises_text h List.not_mem_nil)

theorem scan_minus_text {y : Float} (h : y.toBits.toNat < infinity) :
    scan ("-" ++ text y) = ⟨⟨.minus, "-", none, 1, ⟨0, 1⟩⟩ :: tokens 1 y, []⟩ := by
  have hminus : CutsOff ['-'] (.token .minus none) (text y).toList :=
    .symbol rfl (by simp) ((lexes_text h).head_ne (.inl rfl))
  apply scan_of_tokenises
  rw [String.toList_append]
  exact .cutOff hminus (tokenises_text h (show '\n' ∉ ['-'] by decide))

theorem text_of_signed {x y : Float} (hy : y.toBits.toNat < infinity)
    (h : y.toBits.toNat + 2 ^ 63 = x.toBits.toNat) : text x = "-" ++ text y := by
  have hmod : x.toBits.toNat % 2 ^ 63 = y.toBits.toNat := by
    simp only [infinity_eq] at hy
    omega
  rw [text_eq_unsignedText (Nat.le_of_lt hy)]
  simp only [text, Nat.pow_eq]
  rw [hmod, if_neg (Nat.not_lt.2 (Nat.le_of_lt hy)), if_neg (by omega)]

/-- The text of a finite number is scanned back into it. With the sign bit clear it is the text of
one token, whose literal is the number bit for bit; with the sign bit set, a minus sign comes before
the text of the number with all other bits the same. -/
theorem scan_text (x : Float) (h : x.toBits.toNat % 2 ^ 63 < infinity) :
    (x.toBits.toNat < 2 ^ 63 →
      (∃ whole fraction, Writes x whole fraction) ∧
        scan (Value.number x).text = ⟨tokens 0 x, []⟩) ∧
    (2 ^ 63 ≤ x.toBits.toNat →
      ∃ y, y.toBits.toNat + 2 ^ 63 = x.toBits.toNat ∧
        (Value.number x).text = "-" ++ (Value.number y).text ∧
        scan (Value.number x).text =
          ⟨⟨.minus, "-", none, 1, ⟨0, 1⟩⟩ :: tokens 1 y, []⟩) := by
  constructor
  · intro hclear
    rw [Nat.mod_eq_of_lt hclear] at h
    exact ⟨⟨_, _, writes_digits h⟩, scan_text_of_unsigned h⟩
  · intro hset
    have hbound := x.toBits.toNat_lt
    have hbits := toBits_toFloat (Nat.le_of_lt h)
    have hsum : (toFloat _ (Nat.le_of_lt h)).toBits.toNat + 2 ^ 63 = x.toBits.toNat := by
      rw [hbits]
      omega
    rw [← hbits] at h
    refine ⟨_, hsum, text_of_signed h hsum, ?_⟩
    change scan (text x) = _
    rw [text_of_signed h hsum]
    exact scan_minus_text h

theorem scan_text_of_tenth :
    (∃ whole fraction, Writes (ofDecimal ⟨1, 1⟩) whole fraction) ∧
      scan "0.1" = ⟨tokens 0 (ofDecimal ⟨1, 1⟩), []⟩ ∧
      ∃ y, y.toBits.toNat + 2 ^ 63 = (-ofDecimal ⟨1, 1⟩).toBits.toNat ∧
        "-0.1" = "-" ++ (Value.number y).text ∧
        scan "-0.1" = ⟨⟨.minus, "-", none, 1, ⟨0, 1⟩⟩ :: tokens 1 y, []⟩ := by
  have hpositive : (Value.number (ofDecimal ⟨1, 1⟩)).text = "0.1" := by decide +kernel
  have hnegative : (Value.number (-ofDecimal ⟨1, 1⟩)).text = "-0.1" := by decide +kernel
  obtain ⟨hwrites, hscan⟩ :=
    (scan_text (ofDecimal ⟨1, 1⟩) (by decide +kernel)).1 (by decide +kernel)
  obtain ⟨y, hbits, htext, hminus⟩ :=
    (scan_text (-ofDecimal ⟨1, 1⟩) (by decide +kernel)).2 (by decide +kernel)
  rw [hpositive] at hscan
  rw [hnegative] at htext hminus
  exact ⟨hwrites, hscan, y, hbits, htext, hminus⟩

end Reckoner.Number
