import Reckoner.Proofs.Number.Shortest
import Reckoner.Token.Grammar

/-!
Lexemes and the lexical grammar. The lexeme at the front of a text is a token of the grammar
whenever it is a token at all; and each class of tokens is read back from in front of any text that
does not continue it.
-/
namespace Reckoner

namespace Kind

theorem spelling?_of_ofPair? {c d : Char} {kind : Kind} (h : ofPair? c d = some kind) :
    kind.spelling? = some (String.ofList [c, d]) := by
  unfold ofPair? at h
  split at h <;> cases h <;> rfl

theorem spelling?_of_ofChar? {c : Char} {kind : Kind} (h : ofChar? c = some kind) :
    kind.spelling? = some (String.ofList [c]) := by
  unfold ofChar? at h
  split at h <;> cases h <;> rfl

theorem ofPair?_eq_none {c d : Char} (h : d ≠ '=') : ofPair? c d = none := by
  unfold ofPair?
  split
  · exact absurd rfl h
  · exact absurd rfl h
  · exact absurd rfl h
  · exact absurd rfl h
  · rfl

end Kind

/-! Words of the grammar are those of the scanner. -/

namespace Lexeme

theorem startsWord_iff {c : Char} : startsWord c ↔ IsLetter c := by
  have hupper : c.isUpper ↔ 'A' ≤ c ∧ c ≤ 'Z' := decide_eq_true_iff
  have hlower : c.isLower ↔ 'a' ≤ c ∧ c ≤ 'z' :=
    Bool.and_eq_true_iff.trans (and_congr decide_eq_true_iff decide_eq_true_iff)
  change ((c.isUpper || c.isLower) || c == '_') ↔ _
  rw [Bool.or_eq_true, Bool.or_eq_true, hupper, hlower, beq_iff_eq, or_assoc, or_left_comm]
  exact Iff.rfl

theorem continuesWord_iff {c : Char} : continuesWord c ↔ IsLetter c ∨ c.isDigit := by
  rw [← startsWord_iff]
  simp only [continuesWord, startsWord, Char.isAlphanum, Bool.or_eq_true]
  exact or_right_comm

theorem startsWord_of_isWord {c : Char} {text : List Char} (h : IsWord (c :: text)) :
    startsWord c := by
  obtain ⟨d, letters, heq, hd, _⟩ := h
  cases heq
  exact startsWord_iff.2 hd

end Lexeme

theorem isWord_iff {text : List Char} : IsWord text ↔ ∃ c letters,
    text = c :: letters ∧ Lexeme.startsWord c ∧ ∀ d ∈ letters, Lexeme.continuesWord d := by
  simp only [IsWord, Lexeme.startsWord_iff, Lexeme.continuesWord_iff]

theorem IsWord.ne_nil {text : List Char} (h : IsWord text) : text ≠ [] := by
  obtain ⟨c, letters, rfl, _⟩ := h
  exact List.cons_ne_nil c letters

theorem mem_reservedWords_iff {word : String} {keyword : Keyword} :
    (word, keyword) ∈ reservedWords ↔ word = keyword.spelling := by
  cases keyword <;> simp [reservedWords, Keyword.spelling]

theorem Keyword.isWord_spelling (keyword : Keyword) : IsWord keyword.spelling.toList := by
  cases keyword <;> exact isWord_iff.2 ⟨_, _, rfl, rfl, List.all_eq_true.1 (by decide)⟩

theorem IsWord.of_reserved {word : String} {keyword : Keyword}
    (h : (word, keyword) ∈ reservedWords) : IsWord word.toList :=
  mem_reservedWords_iff.1 h ▸ keyword.isWord_spelling

theorem Lexes.reserved (word : Keyword) : Lexes word.spelling.toList (.keyword word) none :=
  .keyword (mem_reservedWords_iff.2 rfl)

theorem Lexes.identifier_of_ne {text : List Char} (hw : IsWord text)
    (hne : ∀ word : Keyword, text ≠ word.spelling.toList) : Lexes text .identifier none :=
  .identifier hw fun ⟨_, word⟩ hmem => mem_reservedWords_iff.1 hmem ▸ hne word

namespace Lexeme

theorem take_length_takeWhile (p : Char → Bool) (text : List Char) :
    text.take (text.takeWhile p).length = text.takeWhile p :=
  (List.prefix_iff_eq_take.1 (List.takeWhile_prefix p)).symm

theorem fraction_cases (text : List Char) :
    fraction text = [] ∨
      ∃ after, text = '.' :: after ∧ fraction text = after.takeWhile Char.isDigit := by
  unfold fraction
  split
  · exact .inr ⟨_, rfl, rfl⟩
  · exact .inl rfl

/-! Each class of lexemes is one of the grammar. -/

theorem lexes_number {c : Char} {text : List Char} {kind : Kind} {literal : Option Value}
    (hc : c.isDigit) (h : (number c text).reading = .token kind literal) :
    Lexes (c :: text.take (number c text).more) kind literal := by
  have hwhole : IsDigits (c :: text.takeWhile Char.isDigit) := by
    refine ⟨List.cons_ne_nil _ _, ?_⟩
    intro d hd
    rcases List.mem_cons.1 hd with rfl | hd
    · exact hc
    · exact List.all_eq_true.1 List.all_takeWhile d hd
  simp only [number, Reading.token.injEq] at h
  obtain ⟨rfl, rfl⟩ := h
  rcases fraction_cases (text.dropWhile Char.isDigit) with hf | ⟨after, hdrop, hf⟩
  · simp only [number, hf, List.isEmpty_nil, if_true, Nat.add_zero, take_length_takeWhile]
    exact .whole hwhole
  · by_cases hempty : after.takeWhile Char.isDigit = []
    · simp only [number, hf, hempty, List.isEmpty_nil, if_true, Nat.add_zero,
        take_length_takeWhile]
      exact .whole hwhole
    · have htext : text = text.takeWhile Char.isDigit ++ '.' :: after := by
        rw [← hdrop, List.takeWhile_append_dropWhile]
      have htake : text.take ((text.takeWhile Char.isDigit).length +
          ((after.takeWhile Char.isDigit).length + 1)) =
            text.takeWhile Char.isDigit ++ '.' :: after.takeWhile Char.isDigit := by
        conv => lhs; arg 2; rw [htext]
        rw [List.take_length_add_append, List.take_succ_cons, take_length_takeWhile]
      simp only [number, hf, List.isEmpty_iff, hempty, if_false, htake]
      exact .decimal hwhole ⟨hempty, fun d hd => List.all_eq_true.1 List.all_takeWhile d hd⟩

theorem lexes_word {c : Char} {text : List Char} {kind : Kind} {literal : Option Value}
    (hc : startsWord c) (h : (word c text).reading = .token kind literal) :
    Lexes (c :: text.take (word c text).more) kind literal := by
  simp only [word, Reading.token.injEq] at h
  obtain ⟨rfl, rfl⟩ := h
  simp only [word, take_length_takeWhile]
  cases hk : Keyword.ofSpelling? (String.ofList (c :: text.takeWhile continuesWord)) with
  | some word =>
    have hword := Keyword.ofSpelling?_eq_some_iff.1 hk
    have htext : c :: text.takeWhile continuesWord = word.spelling.toList := by
      rw [← hword, String.toList_ofList]
    rw [htext]
    exact .reserved word
  | none =>
    refine .identifier_of_ne (isWord_iff.2 ⟨c, _, rfl, hc, ?_⟩) ?_
    · exact fun d hd => List.all_eq_true.1 List.all_takeWhile d hd
    · intro word htext
      rw [htext, String.ofList_toList, Keyword.ofSpelling?_spelling] at hk
      cases hk

theorem lexes_string {text : List Char} {kind : Kind} {literal : Option Value}
    (h : (string text).reading = .token kind literal) :
    Lexes ('"' :: text.take (string text).more) kind literal := by
  by_cases hlt : (text.takeWhile (· != '"')).length < text.length
  · simp only [string, hlt, if_true, Reading.token.injEq] at h
    obtain ⟨rfl, rfl⟩ := h
    simp only [string, hlt, if_true]
    have hquote : '"' ∉ text.takeWhile (· != '"') := by
      intro hmem
      simpa using List.all_eq_true.1 List.all_takeWhile _ hmem
    obtain ⟨after, hdrop⟩ : ∃ after, text.dropWhile (· != '"') = '"' :: after := by
      cases hd : text.dropWhile (· != '"') with
      | nil =>
        have := congrArg List.length (List.takeWhile_append_dropWhile (p := (· != '"')) (l := text))
        simp only [hd, List.append_nil] at this
        omega
      | cons d after =>
        have := List.head_dropWhile_not (p := (· != '"')) (l := text) (by simp [hd])
        simp only [hd, List.head_cons, bne_eq_false_iff_eq] at this
        exact ⟨after, by rw [this]⟩
    have htake : text.take ((text.takeWhile (· != '"')).length + 1) =
        text.takeWhile (· != '"') ++ ['"'] := by
      have htext := @List.takeWhile_append_dropWhile _ (· != '"') text
      conv => lhs; arg 2; rw [← htext, hdrop]
      rw [List.take_length_add_append]
      rfl
    rw [htake]
    exact .string hquote
  · simp [string, hlt] at h

theorem lexes_symbol {c : Char} {text : List Char} {kind : Kind} {literal : Option Value}
    (hc : ¬ startsWord c) (h : (symbol c text).reading = .token kind literal) :
    Lexes (c :: text.take (symbol c text).more) kind literal := by
  unfold symbol at h ⊢
  split at h
  next found hpair =>
    cases h
    obtain ⟨d, hd, hfound⟩ := Option.bind_eq_some_iff.1 hpair
    have htake : text.take 1 = [d] := by
      cases text with
      | nil => cases hd
      | cons _ _ => cases hd; rfl
    rw [htake]
    exact .symbol (Kind.spelling?_of_ofPair? hfound) fun hw => hc (startsWord_of_isWord hw)
  next hpair =>
    split at h
    next found hfound =>
      cases h
      rw [List.take_zero]
      exact .symbol (Kind.spelling?_of_ofChar? hfound) fun hw => hc (startsWord_of_isWord hw)
    next => cases h

theorem lexes_first {c : Char} {text : List Char} {kind : Kind} {literal : Option Value}
    (h : (first c text).reading = .token kind literal) :
    Lexes (c :: text.take (first c text).more) kind literal := by
  unfold first at h ⊢
  split at h
  next hd =>
    rw [if_pos hd]
    exact lexes_number hd h
  next hd =>
    rw [if_neg hd]
    split at h
    next hw =>
      rw [if_pos hw]
      exact lexes_word hw h
    next hw =>
      rw [if_neg hw]
      split at h
      next hq =>
        rw [if_pos hq, beq_iff_eq.1 hq]
        exact lexes_string h
      next hq =>
        rw [if_neg hq]
        exact lexes_symbol hw h

end Lexeme

theorem Lexes.number {whole fraction : List Char} (hwhole : IsDigits whole)
    (hfraction : ∀ c ∈ fraction, c.isDigit) :
    Lexes (whole ++ Decimal.pointed fraction) .number
      (some (.number (Number.ofDecimal (.ofDigits whole fraction)))) := by
  cases fraction with
  | nil => simpa [Decimal.pointed] using Lexes.whole hwhole
  | cons c fraction => exact .decimal hwhole ⟨List.cons_ne_nil _ _, hfraction⟩

theorem Number.lexes_text {x : Float} (h : x.toBits.toNat < Binary64.infinity) :
    Lexes (text x).toList .number (some (.number x)) := by
  have hlexes := @Lexes.number (digits x).1 (digits x).2
    ⟨whole_ne_nil, fun c hc => isDigit_of_mem_digits (.inl hc)⟩
    fun c hc => isDigit_of_mem_digits (.inr hc)
  rwa [ofDecimal_digits h, ← toList_text h] at hlexes

end Reckoner
