import Reckoner.Proofs.Token.Boundary

/-!
Spacing. The lexemes of a text may be written again with other trivia between them, and the tokens
come out the same, each at the place of its lexeme. A gap between two lexemes has to begin with a
blank: it keeps words and numbers apart, and a slash from the comment behind it.
-/
namespace Reckoner

/-- Closed trivia that begins with a blank, unless it is empty. -/
def IsGap (text : List Char) : Prop :=
  IsTrivia false text ∧ ∀ c ∈ text.head?, Trivia.isBlank c

/-- A token to be written out, and what is left behind its lexeme. -/
structure Spaced where
  token : Token
  gap : List Char

namespace Spaced

def text : List Spaced → List Char
  | [] => []
  | t :: rest => t.token.lexeme.toList ++ (t.gap ++ text rest)

/-- The tokens at the places where `text` has their lexemes, and the end token; `before` is what
comes in front of that text. -/
def tokens (before : List Char) : List Spaced → List Token
  | [] => [⟨.eof, "", none, lineAfter before, .behind before []⟩]
  | t :: rest =>
    let lexeme := t.token.lexeme.toList
    { t.token with line := lineAfter (before ++ lexeme), span := .behind before lexeme }
      :: tokens (before ++ lexeme ++ t.gap) rest

theorem map_face_tokens (before : List Char) (written : List Spaced) :
    (tokens before written).map Token.face =
      written.map (Token.face ∘ token) ++ [([], .token .eof none)] := by
  induction written generalizing before with
  | nil => rfl
  | cons t rest ih =>
    rw [tokens, List.map_cons, ih]
    rfl

end Spaced

theorem Lexeme.separates_of_isBlank {c : Char} (h : Trivia.isBlank c) : separates c := by
  have hc := Trivia.isBlank_iff.1 h
  simp only [List.mem_cons, List.not_mem_nil, or_false] at hc
  rcases hc with rfl | rfl | rfl | rfl <;> decide

theorem forall_mem_dropLast_cons {α : Type} {p : α → Prop} {a : α} {rest : List α} :
    (∀ x ∈ (a :: rest).dropLast, p x) ↔ (rest ≠ [] → p a) ∧ ∀ x ∈ rest.dropLast, p x := by
  cases rest <;> simp

theorem Spaced.separates_behind {t : Spaced} {rest : List Spaced} (hgap : IsGap t.gap)
    (hinner : rest ≠ [] → t.gap ≠ []) :
    ∀ d ∈ (t.gap ++ text rest).head?, Lexeme.separates d := by
  cases hempty : t.gap with
  | nil =>
    cases rest with
    | nil => simp [text]
    | cons u rest => exact absurd hempty (hinner (List.cons_ne_nil u rest))
  | cons c gap =>
    rintro d ⟨⟩
    exact Lexeme.separates_of_isBlank (hgap.2 c (by simp [hempty]))

theorem scan_tokens_filter (source : String) :
    (scan source).tokens.filter (·.kind ≠ .eof) = scanned source := by
  rw [scan_tokens, List.filter_append, List.filter_eq_self.2 fun t ht => ?_]
  · simp [endToken]
  · simpa using (lexical_of_mem_scanned ht).kind_ne_eof

namespace Tokenises

variable {before rest : List Char} {tokens : List Token} {diagnostics : List Diagnostic}

theorem cutOff {lexeme : List Char} {kind : Kind} {literal : Option Value}
    (hcut : CutsOff lexeme (.token kind literal) rest)
    (h : Tokenises (before ++ lexeme) rest tokens diagnostics) :
    Tokenises before (lexeme ++ rest)
      (⟨kind, String.ofList lexeme, literal, lineAfter (before ++ lexeme), .behind before lexeme⟩
        :: tokens) diagnostics := by
  rw [← List.append_nil before] at h
  simpa using Tokenises.token (.of_stops .nil hcut.stops) hcut.takes h

theorem lexeme {lexeme : List Char} {kind : Kind} {literal : Option Value}
    (h : Lexes lexeme kind literal) (hlines : '\n' ∉ before ++ lexeme) :
    let stop := before.length + lexeme.length
    Tokenises before lexeme
      [⟨kind, String.ofList lexeme, literal, 1, ⟨before.length, stop⟩⟩,
        ⟨.eof, "", none, 1, ⟨stop, stop⟩⟩] [] := by
  have hdone := @Tokenises.done (before ++ lexeme) [] .nil
  have hnext := cutOff (h.cutsOff (by simp)) hdone
  simpa [Span.behind, lineAfter, List.count_eq_zero_of_not_mem hlines] using hnext

theorem spaced_cons {t : Spaced} {written : List Spaced}
    (hcut : CutsOff t.token.lexeme.toList (.token t.token.kind t.token.literal)
      (t.gap ++ Spaced.text written))
    (hgap : IsTrivia false t.gap)
    (h : Tokenises (before ++ t.token.lexeme.toList ++ t.gap) (Spaced.text written)
      (Spaced.tokens (before ++ t.token.lexeme.toList ++ t.gap) written) []) :
    Tokenises before (Spaced.text (t :: written)) (Spaced.tokens before (t :: written)) [] := by
  have hnext := cutOff hcut (of_trivia hgap h)
  rwa [String.ofList_toList] at hnext

theorem spaced {written : List Spaced} (hlexical : ∀ t ∈ written, t.token.Lexical)
    (hgaps : ∀ t ∈ written, IsGap t.gap) (hinner : ∀ t ∈ written.dropLast, t.gap ≠ [])
    (before : List Char) :
    Tokenises before (Spaced.text written) (Spaced.tokens before written) [] := by
  -- What is written already joins `before`.
  induction written generalizing before with
  | nil =>
    have hdone := @Tokenises.done before [] .nil
    rwa [List.append_nil] at hdone
  | cons t rest ih =>
    obtain ⟨ht, hlexical⟩ := List.forall_mem_cons.1 hlexical
    obtain ⟨hgap, hgaps⟩ := List.forall_mem_cons.1 hgaps
    obtain ⟨hhere, hinner⟩ := forall_mem_dropLast_cons.1 hinner
    have hseparates := Spaced.separates_behind hgap hhere
    exact spaced_cons (Lexes.cutsOff ht hseparates) hgap.1 (ih hlexical hgaps hinner _)

end Tokenises

/-- Spacing and comments carry no information. The lexemes of the tokens of a source, written one
behind the other with gaps between them, are scanned into these tokens without a fault, each at the
place of its lexeme; only the last gap may be empty. -/
theorem scan_spaced {source : String} {front : List Char} {written : List Spaced}
    (htokens : written.map Spaced.token = (scan source).tokens.filter (·.kind ≠ .eof))
    (hfront : IsTrivia false front) (hgaps : ∀ t ∈ written, IsGap t.gap)
    (hinner : ∀ t ∈ written.dropLast, t.gap ≠ []) :
    scan (String.ofList (front ++ Spaced.text written)) = ⟨Spaced.tokens front written, []⟩ ∧
      (Spaced.tokens front written).map Token.face = (scan source).tokens.map Token.face := by
  rw [scan_tokens_filter] at htokens
  have hlexical : ∀ t ∈ written, t.token.Lexical := by
    intro t ht
    apply lexical_of_mem_scanned
    rw [← htokens]
    exact List.mem_map_of_mem ht
  constructor
  · apply scan_of_tokenises
    rw [String.toList_ofList]
    exact .of_trivia hfront (.spaced hlexical hgaps hinner front)
  · rw [Spaced.map_face_tokens, scan_tokens, ← htokens, List.map_append, List.map_map]
    rfl

theorem scan_spaced_of_comments :
    ∃ front written, IsTrivia false front ∧
      written.map Spaced.token = (scan "1/\"//\"@").tokens.filter (·.kind ≠ .eof) ∧
      (∀ t ∈ written, IsGap t.gap) ∧ (∀ t ∈ written.dropLast, t.gap ≠ []) ∧
      String.ofList (front ++ Spaced.text written) = "// c\n1 /\t// /\"\n\"//\"" ∧
      scan (String.ofList (front ++ Spaced.text written)) = ⟨Spaced.tokens front written, []⟩ ∧
      (Spaced.tokens front written).map Token.face =
        (scan "1/\"//\"@").tokens.map Token.face := by
  let written : List Spaced :=
    [⟨⟨.number, "1", some (.number (Number.ofDecimal ⟨1, 0⟩)), 1, ⟨0, 1⟩⟩, [' ']⟩,
      ⟨⟨.slash, "/", none, 1, ⟨1, 2⟩⟩, ['\t', '/', '/', ' ', '/', '"', '\n']⟩,
      ⟨⟨.string, "\"//\"", some (.str "//"), 1, ⟨2, 6⟩⟩, []⟩]
  have htokens : written.map Spaced.token =
      (scan "1/\"//\"@").tokens.filter (·.kind ≠ .eof) := by
    decide +kernel
  have hfront : IsTrivia false ['/', '/', ' ', 'c', '\n'] :=
    .comment (show '\n' ∉ [' ', 'c'] by decide) .nil
  have hspace : IsGap [' '] := ⟨.blank (by decide) .nil, by rintro c ⟨⟩; rfl⟩
  have hcomment : IsGap ['\t', '/', '/', ' ', '/', '"', '\n'] :=
    ⟨.blank (by decide) (.comment (show '\n' ∉ [' ', '/', '"'] by decide) .nil),
      by rintro c ⟨⟩; rfl⟩
  have hnone : IsGap [] := ⟨.nil, by rintro c ⟨⟩⟩
  have hgaps : ∀ t ∈ written, IsGap t.gap := by
    simp [written, hspace, hcomment, hnone]
  have hinner : ∀ t ∈ written.dropLast, t.gap ≠ [] := by
    simp [written]
  exact ⟨_, written, hfront, htokens, hgaps, hinner, by decide +kernel,
    scan_spaced htokens hfront hgaps hinner⟩

end Reckoner
