import Reckoner.Proofs.Source.Lines
import Reckoner.Proofs.Token.LongestMatch
import Reckoner.Token.Scan

/-!
Scanning is the tokenisation by the longest match: every text has a tokenisation, and it is what the
text is scanned into.
-/
namespace Reckoner

theorem skip_of_stops {rest : List Char} (h : Trivia.Stops rest) (offset : Nat) :
    Trivia.skip false offset rest = (offset, rest) := by
  cases rest with
  | nil => rfl
  | cons c rest => simp [Trivia.skip, h.1, h.2]

theorem IsMaximalTrivia.pieces_append {trivia rest : List Char} (h : IsMaximalTrivia trivia rest)
    (offset : Nat) : pieces offset (trivia ++ rest) = pieces (offset + trivia.length) rest := by
  obtain ⟨hskip, hstops⟩ := h.skip offset
  exact pieces_congr (hskip.trans (skip_of_stops hstops _).symm)

theorem pieces_of_trivia {trivia : List Char} (h : IsTrivia true trivia) (offset : Nat) :
    pieces offset trivia = [] := by
  have hm : IsMaximalTrivia trivia [] := .of_stops h trivial
  have hpieces := hm.pieces_append offset
  rwa [List.append_nil, pieces_nil] at hpieces

theorem pieces_of_takes {trivia lexeme rest : List Char} {reading : Reading}
    (hm : IsMaximalTrivia trivia (lexeme ++ rest)) (ht : Takes lexeme reading rest)
    (before : List Char) :
    pieces before.length (trivia ++ (lexeme ++ rest)) =
      ⟨(before ++ trivia).length, lexeme, reading⟩ ::
        pieces (before ++ trivia ++ lexeme).length rest := by
  obtain ⟨c, more, rfl, hf⟩ := ht.first
  rw [hm.pieces_append]
  rw [List.cons_append] at hm ⊢
  rw [pieces_cons hm.stops.1 hm.stops.2, hf]
  simp only [List.take_left, List.drop_left, List.length_append, List.length_cons]
  rfl

namespace Tokenises

variable {before text whole : List Char} {tokens : List Token} {diagnostics : List Diagnostic}

/-- A tokenisation is made of the pieces of the text; lines are those of the whole text. -/
theorem eq_pieces (h : Tokenises before text tokens diagnostics)
    (hw : whole = before ++ text) :
    tokens = (pieces before.length text).filterMap (Piece.token? (.ofText whole)) ++
        [endToken (.ofText whole) whole.length] ∧
      diagnostics =
        (pieces before.length text).filterMap (Piece.diagnostic? (.ofText whole)) := by
  subst hw
  induction h with
  | @done before trivia ht =>
    have hline := LineIndex.lineAt_length (before ++ trivia) []
    rw [List.append_nil] at hline
    rw [pieces_of_trivia ht, endToken, hline]
    exact ⟨rfl, rfl⟩
  | @token before trivia lexeme rest kind literal tokens diagnostics hm ht _ ih =>
    have hwhole : before ++ (trivia ++ (lexeme ++ rest)) = before ++ trivia ++ lexeme ++ rest := by
      simp
    have hline := LineIndex.lineAt_length (before ++ trivia ++ lexeme) rest
    rw [pieces_of_takes hm ht, hwhole, List.filterMap_cons_some, List.filterMap_cons_none rfl]
    · exact ⟨congrArg _ ih.1, ih.2⟩
    · have hlength := @List.length_append _ (before ++ trivia) lexeme
      rw [hlength] at hline
      simp only [Piece.token?, Piece.span, hline, Span.behind]
  | @fault before trivia lexeme rest fault tokens diagnostics hm ht _ ih =>
    have hwhole : before ++ (trivia ++ (lexeme ++ rest)) = before ++ trivia ++ lexeme ++ rest := by
      simp
    have hline := LineIndex.lineAt_length (before ++ trivia) (lexeme ++ rest)
    rw [← List.append_assoc (before ++ trivia)] at hline
    rw [pieces_of_takes hm ht, hwhole, List.filterMap_cons_none rfl, List.filterMap_cons_some]
    · exact ⟨ih.1, congrArg _ ih.2⟩
    · simp only [Piece.diagnostic?, Piece.span, Fault.report, hline, Span.behind]

end Tokenises

theorem exists_tokenises (before text : List Char) :
    ∃ tokens diagnostics, Tokenises before text tokens diagnostics := by
  rcases exists_takes text with ht | ⟨trivia, lexeme, reading, rest, htext, hm, ht⟩
  · exact ⟨_, _, .done ht⟩
  · have hshorter : rest.length < text.length := by
      have hpos := List.length_pos_iff.2 ht.ne_nil
      rw [htext, List.length_append, List.length_append]
      omega
    obtain ⟨tokens, diagnostics, hrest⟩ := exists_tokenises (before ++ trivia ++ lexeme) rest
    subst htext
    cases reading with
    | token kind literal => exact ⟨_, _, .token hm ht hrest⟩
    | fault fault => exact ⟨_, _, .fault hm ht hrest⟩
termination_by text.length

theorem scan_of_tokenises {source : String} {tokens : List Token} {diagnostics : List Diagnostic}
    (h : Tokenises [] source.toList tokens diagnostics) : scan source = ⟨tokens, diagnostics⟩ := by
  obtain ⟨rfl, rfl⟩ := h.eq_pieces rfl
  rfl

theorem tokenises_scan (source : String) :
    Tokenises [] source.toList (scan source).tokens (scan source).diagnostics := by
  obtain ⟨tokens, diagnostics, h⟩ := exists_tokenises [] source.toList
  rwa [scan_of_tokenises h]

/-- A source is scanned into the tokens and faults of its tokenisation by the longest match, and
into nothing else. The end token comes last, and a fault says what it is. -/
theorem scan_eq_iff_tokenises (source : String) :
    (∀ tokens diagnostics,
      scan source = ⟨tokens, diagnostics⟩ ↔ Tokenises [] source.toList tokens diagnostics) ∧
    Fault.unterminatedString.message = "Unterminated string." ∧
    Fault.unexpectedCharacter.message = "Unexpected character." := by
  refine ⟨fun tokens diagnostics => ⟨?_, scan_of_tokenises⟩, rfl, rfl⟩
  intro h
  have := tokenises_scan source
  rwa [h] at this

end Reckoner
