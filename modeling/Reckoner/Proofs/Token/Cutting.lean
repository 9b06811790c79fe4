import Reckoner.Proofs.Token.Lexemes
import Reckoner.Token.Scan

/-!
How a text is cut in front of another. Lexemes are looked at with the rest of the text in place, so
that the pieces of two texts can be put together where neither runs on into the other.
-/
namespace Reckoner

/-! What stops a run of characters is the first one that does not belong to it. -/

theorem takeWhile_append_of_head {p : Char → Bool} {run rest : List Char}
    (hrun : ∀ c ∈ run, p c) (hrest : ∀ c ∈ rest.head?, ¬ p c) :
    (run ++ rest).takeWhile p = run := by
  rw [List.takeWhile_append_of_pos hrun]
  cases rest with
  | nil => simp
  | cons c rest => simp [hrest c rfl]

theorem dropWhile_append_of_head {p : Char → Bool} {run rest : List Char}
    (hrun : ∀ c ∈ run, p c) (hrest : ∀ c ∈ rest.head?, ¬ p c) :
    (run ++ rest).dropWhile p = rest := by
  rw [List.dropWhile_append_of_pos hrun]
  cases rest with
  | nil => rfl
  | cons c rest => simp [hrest c rfl]

namespace Lexeme

theorem not_isDigit_of_startsWord {c : Char} (h : startsWord c) : ¬ c.isDigit := by
  delta startsWord Char.isAlpha Char.isUpper Char.isLower at h
  delta Char.isDigit
  simp only [Bool.or_eq_true, Bool.and_eq_true, decide_eq_true_eq, beq_iff_eq, ge_iff_le,
    UInt32.le_iff_toNat_le] at h ⊢
  rcases h with h | rfl
  · simp at h ⊢
    omega
  · decide

theorem first_number {c : Char} {whole fraction rest : List Char} (hc : c.isDigit)
    (hwhole : ∀ d ∈ whole, d.isDigit) (hfraction : ∀ d ∈ fraction, d.isDigit)
    (hrest : ∀ d ∈ rest.head?, ¬ d.isDigit ∧ d ≠ '.') :
    first c (whole ++ Decimal.pointed fraction ++ rest) =
      ⟨.token .number (some (.number (Number.ofDecimal (.ofDigits (c :: whole) fraction)))),
        (whole ++ Decimal.pointed fraction).length⟩ := by
  have hdigit : ∀ d ∈ rest.head?, ¬ d.isDigit := fun d hd => (hrest d hd).1
  have hpoint : ∀ d ∈ (Decimal.pointed fraction ++ rest).head?, ¬ d.isDigit := by
    cases fraction with
    | nil => exact hdigit
    | cons => simp [Decimal.pointed]
  have hread : Lexeme.fraction (Decimal.pointed fraction ++ rest) = fraction := by
    cases fraction with
    | nil =>
      cases rest with
      | nil => rfl
      | cons d rest =>
        have hd : d ≠ '.' := (hrest d rfl).2
        rcases fraction_cases (d :: rest) with h | ⟨after, h, _⟩
        · exact h
        · cases h
          exact absurd rfl hd
    | cons => exact takeWhile_append_of_head hfraction hdigit
  rw [List.append_assoc]
  unfold first number
  rw [if_pos hc, takeWhile_append_of_head hwhole hpoint, dropWhile_append_of_head hwhole hpoint,
    hread]
  cases fraction <;> simp [Decimal.pointed]

theorem first_word {c : Char} {letters rest : List Char} (hc : startsWord c)
    (hletters : ∀ d ∈ letters, continuesWord d) (hrest : ∀ d ∈ rest.head?, ¬ continuesWord d) :
    first c (letters ++ rest) =
      ⟨.token (((Keyword.ofSpelling? (String.ofList (c :: letters))).map Kind.keyword).getD
        .identifier) none, letters.length⟩ := by
  unfold first word
  rw [if_neg (not_isDigit_of_startsWord hc), if_pos hc, takeWhile_append_of_head hletters hrest]
  dsimp only
  cases Keyword.ofSpelling? (String.ofList (c :: letters)) <;> rfl

theorem first_string {body rest : List Char} (h : '"' ∉ body) :
    first '"' (body ++ '"' :: rest) =
      ⟨.token .string (some (.str (String.ofList body))), body.length + 1⟩ := by
  have hbody : (body ++ '"' :: rest).takeWhile (· != '"') = body := by
    apply takeWhile_append_of_head
    · intro c hc
      simp only [bne_iff_ne]
      rintro rfl
      exact h hc
    · simp
  have hdigit : ¬ '"'.isDigit := by decide
  have hword : ¬ startsWord '"' := by decide
  unfold first string
  rw [if_neg hdigit, if_neg hword, if_pos (beq_self_eq_true '"'), hbody]
  simp

theorem first_symbol {kind : Kind} {c : Char} {more rest : List Char}
    (hs : kind.spelling? = some (String.ofList (c :: more))) (hk : ∀ word, kind ≠ .keyword word)
    (hrest : ∀ d ∈ rest.head?, d ≠ '=' ∧ d ≠ '/') :
    first c (more ++ rest) = ⟨.token kind none, more.length⟩ ∧
      Trivia.isBlank c = false ∧ Trivia.startsComment c (more ++ rest) = false := by
  have htext : kind.spelling?.map String.toList = some (c :: more) := by simp [hs]
  have hpair : ∀ d, rest.head?.bind (Kind.ofPair? d) = none := by
    intro d
    cases rest with
    | nil => rfl
    | cons e rest => exact Kind.ofPair?_eq_none (hrest e rfl).1
  have hslash : rest.head? ≠ some '/' := fun h => (hrest _ h).2 rfl
  cases kind with
  | keyword word => exact absurd rfl (hk word)
  | identifier | string | number | eof => cases htext
  | bangEqual | equalEqual | greaterEqual | lessEqual =>
    simp [Kind.spelling?] at htext
    obtain ⟨rfl, rfl⟩ := htext
    exact ⟨rfl, rfl, rfl⟩
  | _ =>
    simp [Kind.spelling?] at htext
    obtain ⟨rfl, rfl⟩ := htext
    refine ⟨?_, rfl, ?_⟩
    · rw [List.nil_append, first, if_neg (by decide), if_neg (by decide), if_neg (by decide),
        symbol, hpair]
      rfl
    · simp [Trivia.startsComment, hslash]

end Lexeme

def Trivia.Excludes (c : Char) : Prop :=
  isBlank c = false ∧ ∀ text, startsComment c text = false

theorem Trivia.excludes_of_class {p : Char → Bool} {c : Char}
    (hp : [' ', '\t', '\r', '\n', '/'].any p = false) (h : p c) : Excludes c := by
  have hne : ∀ d ∈ [' ', '\t', '\r', '\n', '/'], c ≠ d := by
    rintro d hd rfl
    exact List.any_eq_false.1 hp c hd h
  simp only [List.mem_cons, List.not_mem_nil, or_false, forall_eq_or_imp, forall_eq] at hne
  obtain ⟨hspace, htab, hreturn, hnewline, hslash⟩ := hne
  constructor
  · simp [isBlank, hspace, htab, hreturn, hnewline]
  · simp [startsComment, hslash]

theorem Trivia.excludes_of_isDigit {c : Char} (h : c.isDigit) : Excludes c :=
  excludes_of_class (by decide) h

theorem Trivia.excludes_of_startsWord {c : Char} (h : Lexeme.startsWord c) : Excludes c :=
  excludes_of_class (by decide) h

/-! Pieces, one at a time. -/

theorem pieces_congr {offset offset' : Nat} {text text' : List Char}
    (h : Trivia.skip false offset text = Trivia.skip false offset' text') :
    pieces offset text = pieces offset' text' := by
  rw [pieces, pieces]
  split <;> split <;> simp_all

theorem pieces_nil (offset : Nat) : pieces offset [] = [] := by
  rw [pieces]
  rfl

theorem pieces_blank {c : Char} (h : Trivia.isBlank c) (offset : Nat) (text : List Char) :
    pieces offset (c :: text) = pieces (offset + 1) text := by
  apply pieces_congr
  simp [Trivia.skip, h]

theorem pieces_cons {c : Char} {text : List Char} (hb : Trivia.isBlank c = false)
    (hc : Trivia.startsComment c text = false) (offset : Nat) :
    pieces offset (c :: text) =
      ⟨offset, c :: text.take (Lexeme.first c text).more, (Lexeme.first c text).reading⟩ ::
        pieces (offset + (Lexeme.first c text).more + 1)
          (text.drop (Lexeme.first c text).more) := by
  have hskip : Trivia.skip false offset (c :: text) = (offset, c :: text) := by
    simp [Trivia.skip, hb, hc]
  rw [pieces]
  split
  next h =>
    rw [hskip] at h
    cases h
  next h =>
    rw [hskip] at h
    cases h
    rfl

def Piece.face (piece : Piece) : List Char × Reading :=
  (piece.text, piece.reading)

/-- In front of `rest`, the text is cut into lexemes with these faces, and `rest` is cut as if it
stood alone. -/
def CutsInto (text : List Char) (faces : List (List Char × Reading)) (rest : List Char) : Prop :=
  ∀ offset, (pieces offset (text ++ rest)).map Piece.face =
    faces ++ (pieces (offset + text.length) rest).map Piece.face

namespace CutsInto

theorem append {left right rest : List Char} {faces faces' : List (List Char × Reading)}
    (hl : CutsInto left faces (right ++ rest)) (hr : CutsInto right faces' rest) :
    CutsInto (left ++ right) (faces ++ faces') rest := by
  intro offset
  rw [List.append_assoc, hl, hr, List.append_assoc, List.length_append, Nat.add_assoc]

theorem blank {c : Char} (h : Trivia.isBlank c) (rest : List Char) : CutsInto [c] [] rest := by
  intro offset
  exact congrArg _ (pieces_blank h offset rest)

theorem map_face {text : List Char} {faces : List (List Char × Reading)}
    (h : CutsInto text faces []) (offset : Nat) :
    (pieces offset text).map Piece.face = faces := by
  have := h offset
  rwa [List.append_nil, pieces_nil, List.map_nil, List.append_nil] at this

end CutsInto

def CutsOff (text : List Char) (reading : Reading) (rest : List Char) : Prop :=
  ∃ c more, text = c :: more ∧ Lexeme.first c (more ++ rest) = ⟨reading, more.length⟩ ∧
    Trivia.isBlank c = false ∧ Trivia.startsComment c (more ++ rest) = false

namespace CutsOff

theorem cutsInto {text rest : List Char} {reading : Reading} (h : CutsOff text reading rest) :
    CutsInto text [(text, reading)] rest := by
  obtain ⟨c, more, rfl, hf, hb, hc⟩ := h
  intro offset
  rw [List.cons_append, pieces_cons hb hc, hf]
  simp only [List.map_cons, List.take_left, List.drop_left]
  rfl

theorem symbol {kind : Kind} {text rest : List Char}
    (hs : kind.spelling? = some (String.ofList text)) (hk : ∀ word, kind ≠ .keyword word)
    (hrest : ∀ d ∈ rest.head?, d ≠ '=' ∧ d ≠ '/') : CutsOff text (.token kind none) rest := by
  cases text with
  | nil => cases kind <;> simp [Kind.spelling?] at hs hk
  | cons c more => exact ⟨c, more, rfl, Lexeme.first_symbol hs hk hrest⟩

theorem word {c : Char} {letters rest : List Char} (hc : Lexeme.startsWord c)
    (hletters : ∀ d ∈ letters, Lexeme.continuesWord d)
    (hrest : ∀ d ∈ rest.head?, ¬ Lexeme.continuesWord d) :
    CutsOff (c :: letters)
      (.token (((Keyword.ofSpelling? (String.ofList (c :: letters))).map Kind.keyword).getD
        .identifier) none) rest :=
  have hx := Trivia.excludes_of_startsWord hc
  ⟨c, letters, rfl, Lexeme.first_word hc hletters hrest, hx.1, hx.2 _⟩

theorem string {body : List Char} (h : '"' ∉ body) (rest : List Char) :
    CutsOff ('"' :: body ++ ['"']) (.token .string (some (.str (String.ofList body)))) rest := by
  refine ⟨'"', body ++ ['"'], rfl, ?_, rfl, rfl⟩
  simpa using Lexeme.first_string h

theorem number {whole fraction rest : List Char} (hne : whole ≠ [])
    (hwhole : ∀ d ∈ whole, d.isDigit) (hfraction : ∀ d ∈ fraction, d.isDigit)
    (hrest : ∀ d ∈ rest.head?, ¬ d.isDigit ∧ d ≠ '.') :
    CutsOff (whole ++ Decimal.pointed fraction)
      (.token .number (some (.number (Number.ofDecimal (.ofDigits whole fraction))))) rest := by
  cases whole with
  | nil => exact absurd rfl hne
  | cons c whole =>
    have hc : c.isDigit := hwhole c List.mem_cons_self
    have hx := Trivia.excludes_of_isDigit hc
    refine ⟨c, whole ++ Decimal.pointed fraction, rfl, ?_, hx.1, hx.2 _⟩
    exact Lexeme.first_number hc (fun d hd => hwhole d (List.mem_cons_of_mem _ hd)) hfraction hrest

end CutsOff

/-- No token goes on with this character, but for strings that are still open. -/
def Lexeme.separates (c : Char) : Bool :=
  !continuesWord c && c != '.' && c != '=' && c != '/'

theorem Lexes.ne_keyword {text : List Char} {kind : Kind}
    (hs : kind.spelling? = some (String.ofList text)) (hn : ¬ IsWord text) (word : Keyword) :
    kind ≠ .keyword word := by
  rintro rfl
  apply hn
  rw [← @String.toList_ofList text, ← Option.some.inj hs]
  exact word.isWord_spelling

theorem Lexes.isDigit_of_head? {text : List Char} {literal : Option Value} {c : Char}
    (h : Lexes text .number literal) (hc : text.head? = some c) : c.isDigit := by
  have hdigits {digits rest : List Char} (hd : IsDigits digits)
      (hc : (digits ++ rest).head? = some c) : c.isDigit := by
    obtain ⟨d, more, rfl⟩ := List.exists_cons_of_ne_nil hd.1
    obtain rfl := Option.some.inj hc
    exact hd.2 d List.mem_cons_self
  cases h with
  | symbol hs => cases hs
  | whole hd => exact @hdigits _ [] hd (by rwa [List.append_nil])
  | decimal hd => exact hdigits hd hc

theorem Lexes.head_ne {text : List Char} {kind : Kind} {literal : Option Value}
    (h : Lexes text kind literal) (hk : kind.spelling? = none ∨ ∃ word, kind = .keyword word) :
    ∀ d ∈ text.head?, d ≠ '=' ∧ d ≠ '/' := by
  have hclass {p : Char → Bool} (hp : ['=', '/'].any p = false) {d : Char} (hd : p d) :
      d ≠ '=' ∧ d ≠ '/' := by
    constructor <;> rintro rfl <;> simp_all
  have hword {text : List Char} (hw : IsWord text) : ∀ d ∈ text.head?, d ≠ '=' ∧ d ≠ '/' := by
    obtain ⟨c, letters, rfl, hc, _⟩ := isWord_iff.1 hw
    rintro d ⟨⟩
    exact hclass (by decide) hc
  cases h with
  | symbol hs hn =>
    rcases hk with hnone | ⟨word, rfl⟩
    · cases hnone.symm.trans hs
    · exact absurd rfl (ne_keyword hs hn word)
  | whole hd => exact fun d hc => hclass (by decide) (isDigit_of_head? (.whole hd) hc)
  | decimal hd hf => exact fun d hc => hclass (by decide) (isDigit_of_head? (.decimal hd hf) hc)
  | string =>
    rintro d ⟨⟩
    decide
  | keyword hmem => exact hword (.of_reserved hmem)
  | identifier hw => exact hword hw

/-- A token of any class is read again from in front of whatever does not continue it. -/
theorem Lexes.cutsOff {text rest : List Char} {kind : Kind} {literal : Option Value}
    (h : Lexes text kind literal) (hrest : ∀ d ∈ rest.head?, Lexeme.separates d) :
    CutsOff text (.token kind literal) rest := by
  simp only [Lexeme.separates, Bool.and_eq_true, Bool.not_eq_true', bne_iff_ne] at hrest
  have hword : ∀ d ∈ rest.head?, ¬ Lexeme.continuesWord d := fun d hd => by
    simp [(hrest d hd).1.1.1]
  have hnumber : ∀ d ∈ rest.head?, ¬ d.isDigit ∧ d ≠ '.' := fun d hd =>
    ⟨fun hdigit => hword d hd (by simp [Lexeme.continuesWord, Char.isAlphanum, hdigit]),
      (hrest d hd).1.1.2⟩
  cases h with
  | symbol hs hn =>
    apply CutsOff.symbol hs (Lexes.ne_keyword hs hn)
    exact fun d hd => ⟨(hrest d hd).1.2, (hrest d hd).2⟩
  | whole hd =>
    have := @CutsOff.number text [] rest hd.1 hd.2 (by simp) hnumber
    simpa [Decimal.pointed] using this
  | @decimal digits fraction hd hf =>
    cases fraction with
    | nil => exact absurd rfl hf.1
    | cons c fraction => exact CutsOff.number hd.1 hd.2 hf.2 hnumber
  | string hb => exact CutsOff.string hb rest
  | keyword hmem =>
    obtain ⟨c, letters, htext, hc, hletters⟩ := isWord_iff.1 (IsWord.of_reserved hmem)
    have hread := CutsOff.word hc hletters hword
    have hfound : Keyword.ofSpelling? _ = some _ :=
      Keyword.ofSpelling?_eq_some_iff.2 (mem_reservedWords_iff.1 hmem)
    rwa [← htext, String.ofList_toList, hfound] at hread
  | identifier hw hne =>
    obtain ⟨c, letters, rfl, hc, hletters⟩ := isWord_iff.1 hw
    have hnone : Keyword.ofSpelling? (String.ofList (c :: letters)) = none := by
      rw [Option.eq_none_iff_forall_ne_some]
      intro word hk
      apply hne _ (mem_reservedWords_iff.2 (@rfl _ word.spelling))
      rw [← Keyword.ofSpelling?_eq_some_iff.1 hk, String.toList_ofList]
    have := CutsOff.word hc hletters hword
    rwa [hnone] at this

theorem Lexes.cutsInto {text rest : List Char} {kind : Kind} {literal : Option Value}
    (h : Lexes text kind literal) (hrest : ∀ d ∈ rest.head?, Lexeme.separates d) :
    CutsInto text [(text, .token kind literal)] rest :=
  (h.cutsOff hrest).cutsInto

end Reckoner
