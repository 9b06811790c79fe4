import Reckoner.Proofs.Token.Covering

/-!
Places of scanned tokens and diagnostics. A token is on the line where it ends and a diagnostic on
the line where it starts; both lie in the text and are not empty, but for the end token.
-/
namespace Reckoner

structure Span.Within (span : Span) (text : List Char) : Prop where
  nonempty : span.start < span.stop
  inBounds : span.stop ≤ text.length

/-- A token where it is in the text, on the line where it ends. -/
structure Token.PlacedIn (t : Token) (text : List Char) : Prop where
  line_eq : t.line = lineAfter (text.take t.span.stop)
  within : t.kind ≠ .eof → t.span.Within text
  span_eof : t.kind = .eof → t.span = ⟨text.length, text.length⟩

structure Diagnostic.PlacedIn (d : Diagnostic) (text : List Char) : Prop where
  line_eq : d.line = lineAfter (text.take d.span.start)
  within : d.span.Within text
  location_eq : d.location = ""

namespace Token.PlacedIn

variable {t : Token} {text : List Char}

theorem empty_iff (h : t.PlacedIn text) : t.span.start = t.span.stop ↔ t.kind = .eof := by
  constructor
  · intro hempty
    by_contra hk
    exact Nat.ne_of_lt (h.within hk).nonempty hempty
  · intro hk
    rw [h.span_eof hk]

theorem start_le_stop (h : t.PlacedIn text) : t.span.start ≤ t.span.stop := by
  by_cases hk : t.kind = .eof
  · rw [h.span_eof hk]
  · exact Nat.le_of_lt (h.within hk).nonempty

theorem line_eof (h : t.PlacedIn text) (hk : t.kind = .eof) : t.line = lineAfter text := by
  rw [h.line_eq, h.span_eof hk, List.take_length]

end Token.PlacedIn

theorem placedIn_endToken (text : List Char) :
    (endToken (.ofText text) text.length).PlacedIn text :=
  ⟨LineIndex.lineAt_ofText _ _, fun hk => absurd rfl hk, fun _ => rfl⟩

section
variable {source : String}

theorem line_of_mem_scanned {t : Token} (h : t ∈ scanned source) :
    t.line = lineAfter (source.toList.take t.span.stop) := by
  obtain ⟨piece, _, ht⟩ := List.mem_filterMap.1 h
  unfold Piece.token? at ht
  split at ht <;> cases ht
  exact LineIndex.lineAt_ofText _ _

theorem exists_laid_of_mem_scanned {t : Token} (h : t ∈ scanned source) :
    ∃ found, Laid source.toList 0 found ∧ .token t ∈ found := by
  obtain ⟨found, line, htokens, _, hlaid⟩ := (tokenises_scan source).exists_laid rfl
  rw [scan_tokens] at htokens
  rw [List.append_inj_left' htokens rfl] at h
  exact ⟨found, hlaid, Finding.mem_tokens_iff.1 h⟩

theorem within_of_mem_scanned {t : Token} (h : t ∈ scanned source) :
    t.span.Within source.toList := by
  obtain ⟨found, hlaid, hmem⟩ := exists_laid_of_mem_scanned h
  obtain ⟨_, hpos, hstop⟩ := hlaid.bounds _ hmem
  exact ⟨hpos, hstop⟩

theorem lexeme_of_mem_scanned {t : Token} (h : t ∈ scanned source) :
    t.lexeme.toList = t.span.slice source.toList := by
  obtain ⟨found, hlaid, hmem⟩ := exists_laid_of_mem_scanned h
  exact (hlaid.faithful _ hmem).2

theorem placedIn_of_mem_tokens {t : Token} (h : t ∈ (scan source).tokens) :
    t.PlacedIn source.toList := by
  rcases mem_scan_tokens.1 h with h | rfl
  · exact ⟨line_of_mem_scanned h, fun _ => within_of_mem_scanned h,
      fun hk => absurd hk (lexical_of_mem_scanned h).kind_ne_eof⟩
  · exact placedIn_endToken _

theorem placedIn_of_mem_diagnostics {d : Diagnostic} (h : d ∈ (scan source).diagnostics) :
    d.PlacedIn source.toList := by
  obtain ⟨found, line, _, hdiagnostics, hlaid⟩ := (tokenises_scan source).exists_laid rfl
  have hfound := hdiagnostics ▸ h
  obtain ⟨_, hpos, hstop⟩ := hlaid.bounds _ (Finding.mem_diagnostics_iff.1 hfound)
  obtain ⟨piece, _, hd⟩ := List.mem_filterMap.1 h
  unfold Piece.diagnostic? at hd
  split at hd <;> cases hd
  exact ⟨LineIndex.lineAt_ofText _ _, ⟨hpos, hstop⟩, rfl⟩

theorem exists_eof_of_scan (source : String) : ∃ t ∈ (scan source).tokens, t.kind = .eof :=
  ⟨_, mem_scan_tokens.2 (.inr rfl), rfl⟩

end
end Reckoner
