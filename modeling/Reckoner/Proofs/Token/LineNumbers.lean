import Mathlib.Data.List.Chain
import Reckoner.Proofs.Token.Placing

/-!
Line numbers of a scan. A token is on the line where it ends, so a string that goes over newlines is
on the line of its closing quote. The ends of the tokens ascend, and so do their lines, by the
newlines in between.
-/
namespace Reckoner

theorem lineAfter_take {start stop : Nat} (h : start ≤ stop) (text : List Char) :
    lineAfter (text.take stop) =
      lineAfter (text.take start) + (Span.slice ⟨start, stop⟩ text).count '\n' := by
  rw [← Span.take_append_slice h, lineAfter, lineAfter, List.count_append, Nat.add_assoc]

theorem Lexes.exists_closing_quote {lexeme : List Char} {kind : Kind} {literal : Option Value}
    (h : Lexes lexeme kind literal) (hk : kind = .string) : ∃ front, lexeme = front ++ ['"'] := by
  cases h with
  | string => exact ⟨_, rfl⟩
  | symbol hs => cases hk; cases hs
  | _ => cases hk

section
variable {source : String} {t : Token}

theorem mem_scanned_of_kind (h : t ∈ (scan source).tokens) (hk : t.kind ≠ .eof) :
    t ∈ scanned source :=
  (mem_scan_tokens.1 h).resolve_right fun heq => hk (heq ▸ rfl)

theorem exists_closing_quote (h : t ∈ scanned source) (hk : t.kind = .string) :
    ∃ before after, source.toList = before ++ '"' :: after ∧ t.span.stop = before.length + 1 := by
  obtain ⟨front, hfront⟩ := (lexical_of_mem_scanned h).exists_closing_quote hk
  obtain ⟨hpos, hstop⟩ := within_of_mem_scanned h
  -- The lexeme is cut out of the text, so the text up to where it ends has the same last character.
  have htake : source.toList.take t.span.stop =
      source.toList.take t.span.start ++ front ++ ['"'] := by
    rw [← Span.take_append_slice (Nat.le_of_lt hpos), ← lexeme_of_mem_scanned h, hfront,
      List.append_assoc]
  refine ⟨source.toList.take t.span.start ++ front, source.toList.drop t.span.stop, ?_, ?_⟩
  · rw [← List.singleton_append, ← List.append_assoc, ← htake, List.take_append_drop]
  · have hlength := congrArg List.length htake
    rwa [List.length_take_of_le hstop, List.length_append, List.length_singleton] at hlength

theorem line_of_string (h : t ∈ (scan source).tokens) (hk : t.kind = .string) :
    ∃ quote, t.span.stop = quote + 1 ∧ source.toList[quote]? = some '"' ∧
      t.line = (LineIndex.ofText source.toList).lineAt quote := by
  have hmem := mem_scanned_of_kind h (by simp [hk])
  obtain ⟨before, after, htext, hstop⟩ := exists_closing_quote hmem hk
  refine ⟨before.length, hstop, by simp [htext], ?_⟩
  rw [line_of_mem_scanned hmem, hstop, htext, LineIndex.lineAt_length]
  simp [lineAfter, List.take_append, List.take_of_length_le]

end

theorem lines_ascend {source : String} :
    (scan source).tokens.Pairwise fun t u =>
      t.span.stop ≤ u.span.stop ∧
      u.line = t.line + (Span.slice ⟨t.span.stop, u.span.stop⟩ source.toList).count '\n' := by
  refine (scan_tokens_ascend source).imp_of_mem fun {t u} ht hu htu => ?_
  have hle := Nat.le_trans htu.2 (placedIn_of_mem_tokens hu).start_le_stop
  refine ⟨hle, ?_⟩
  rw [(placedIn_of_mem_tokens ht).line_eq, (placedIn_of_mem_tokens hu).line_eq, lineAfter_take hle]

/-- The newlines are recorded in ascending order, and the line that is searched for an offset, also
for one past the end, is one more than the newlines before it. Tokens stand on the line where they
end, strings on that of the closing quote, and diagnostics on the line where they start. The lines
of the tokens never decrease, and two neighbours are as many lines apart as there are newlines
between their ends. -/
theorem line_numbers (source : String) :
    let text := source.toList
    let lines := LineIndex.ofText text
    let tokens := (scan source).tokens
    (lines.newlines.toList.Pairwise (· < ·) ∧
      ∀ offset, offset ∈ lines.newlines ↔ text[offset]? = some '\n') ∧
    (∀ offset, lines.lineAt offset = 1 + (text.take (min offset text.length)).count '\n') ∧
    (∀ t ∈ tokens, t.line = 1 + (text.take t.span.stop).count '\n') ∧
    (∀ t ∈ tokens, t.kind = .string → ∃ quote, t.span.stop = quote + 1 ∧
      text[quote]? = some '"' ∧ t.line = lines.lineAt quote) ∧
    (∀ d ∈ (scan source).diagnostics, d.line = 1 + (text.take d.span.start).count '\n') ∧
    (tokens.Pairwise fun t u => t.line ≤ u.line) ∧
    tokens.IsChain fun t u => t.span.stop ≤ u.span.stop ∧
      u.line = t.line + (Span.slice ⟨t.span.stop, u.span.stop⟩ text).count '\n' := by
  intro text lines tokens
  refine ⟨⟨newlineOffsets_ascend 0 text, fun offset => ?_⟩, fun offset => ?_, fun t ht => ?_,
    fun t ht => line_of_string ht, fun d hd => ?_, ?_, lines_ascend.isChain⟩
  · rw [Array.mem_def]
    simpa [lines, LineIndex.ofText] using @mem_newlineOffsets text 0 offset
  · rw [LineIndex.lineAt_ofText, ← List.take_eq_take_min]
    rfl
  · exact (placedIn_of_mem_tokens ht).line_eq
  · exact (placedIn_of_mem_diagnostics hd).line_eq
  · exact lines_ascend.imp fun {t u} htu => htu.2 ▸ Nat.le_add_right _ _

/-- The string opens on the second line and closes on the third. -/
example : (scan "// one\n\"a\nb\"+c\n").tokens.map Token.line = [3, 3, 3, 4] := by
  decide +kernel

end Reckoner
