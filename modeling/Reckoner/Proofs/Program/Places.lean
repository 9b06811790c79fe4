import Reckoner.Proofs.Expr.FirstFault
import Reckoner.Proofs.Program.Blame
import Reckoner.Proofs.Token.Placing

/-!
Places of errors. Whatever keeps a program from having a value is reported at characters of its text
and on their line, but for a fault that parsing finds at the end token: this one is reported at the
empty place where the text ends.
-/
namespace Reckoner.Program

variable {source : String}

theorem placedIn_of_runtime {error : RuntimeError}
    (h : run source = .error (.runtime error)) :
    error.token.PlacedIn source.toList ∧ error.token.kind ≠ .eof := by
  obtain ⟨before, after, htokens, hnumeric, _⟩ := exists_blamed h
  have hmem : error.token ∈ (scan source).tokens := by simp [htokens]
  refine ⟨placedIn_of_mem_tokens hmem, ?_⟩
  intro hk
  rw [hk] at hnumeric
  exact absurd hnumeric (by decide)

theorem exists_offending_of_run {diagnostics : List Diagnostic}
    (h : run source = .error (.illFormed diagnostics)) (hscan : (scan source).diagnostics = []) :
    ∃ fault i t,
      (Viability.operand 0).firstFault 0 (scan source).tokens = some (fault, i) ∧
      (scan source).tokens[i]? = some t ∧ diagnostics = [fault.report t.line t.span] := by
  rcases run_eq_illFormed_iff.1 h with ⟨hne, heq⟩ | ⟨_, d, hparse, rfl⟩
  · exact absurd (heq.symm.trans hscan) hne
  · obtain ⟨fault, i, t, hf, ht, rfl⟩ :=
      Expr.exists_offending (exists_eof_of_scan source) hparse
    exact ⟨fault, i, t, hf, ht, rfl⟩

theorem diagnostics_of_run {diagnostics : List Diagnostic}
    (h : run source = .error (.illFormed diagnostics)) (hscan : (scan source).diagnostics ≠ []) :
    (scan source).diagnostics = diagnostics := by
  rcases run_eq_illFormed_iff.1 h with ⟨_, heq⟩ | ⟨hnil, _⟩
  · exact heq
  · exact absurd hnil hscan

/-- The places of all errors of a program. There is a fault in an ill-formed one, and none has a
location. The faults of the scan, and the token that a runtime error blames, are characters of the
text, on the line of their start and of their end. A fault found while parsing is reported at the
first token that may not come next: at characters too, or at the empty place at the end of the last
line, exactly if the token is the end token. -/
theorem places_of_errors (source : String) :
    let text := source.toList
    let tokens := (scan source).tokens
    (∀ diagnostics, run source = .error (.illFormed diagnostics) →
      diagnostics ≠ [] ∧ (∀ d ∈ diagnostics, d.location = "") ∧
      ((scan source).diagnostics ≠ [] →
        (scan source).diagnostics = diagnostics ∧
        ∀ d ∈ diagnostics, d.span.start < d.span.stop ∧ d.span.stop ≤ text.length ∧
          d.line = lineAfter (text.take d.span.start)) ∧
      ((scan source).diagnostics = [] → ∃ fault i t,
        (Viability.operand 0).firstFault 0 tokens = some (fault, i) ∧ tokens[i]? = some t ∧
        diagnostics = [fault.report t.line t.span] ∧
        (t.span.start = t.span.stop ↔ t.kind = .eof) ∧
        (t.kind ≠ .eof → t.span.start < t.span.stop ∧ t.span.stop ≤ text.length ∧
          t.line = lineAfter (text.take t.span.stop)) ∧
        (t.kind = .eof → t.span = ⟨text.length, text.length⟩ ∧ t.line = lineAfter text))) ∧
    ∀ error, run source = .error (.runtime error) →
      error.token.span.start < error.token.span.stop ∧
      error.token.span.stop ≤ text.length ∧
      error.token.line = lineAfter (text.take error.token.span.stop) := by
  intro text tokens
  refine ⟨fun diagnostics h => ⟨ne_nil_of_run h, ?_, fun hscan => ?_, fun hscan => ?_⟩,
    fun error h => ?_⟩
  · by_cases hscan : (scan source).diagnostics = []
    · obtain ⟨fault, i, t, _, _, rfl⟩ := exists_offending_of_run h hscan
      simp [Fault.report]
    · rw [← diagnostics_of_run h hscan]
      exact fun d hd => (placedIn_of_mem_diagnostics hd).location_eq
  · have heq := diagnostics_of_run h hscan
    refine ⟨heq, fun d hd => ?_⟩
    have hplaced := placedIn_of_mem_diagnostics (heq ▸ hd)
    exact ⟨hplaced.within.nonempty, hplaced.within.inBounds, hplaced.line_eq⟩
  · obtain ⟨fault, i, t, hf, ht, rfl⟩ := exists_offending_of_run h hscan
    have hplaced := placedIn_of_mem_tokens (List.mem_of_getElem? ht)
    refine ⟨fault, i, t, hf, ht, rfl, hplaced.empty_iff, fun hk => ?_, fun hk => ?_⟩
    · exact ⟨(hplaced.within hk).nonempty, (hplaced.within hk).inBounds, hplaced.line_eq⟩
    · exact ⟨hplaced.span_eof hk, hplaced.line_eof hk⟩
  · obtain ⟨hplaced, hk⟩ := placedIn_of_runtime h
    exact ⟨(hplaced.within hk).nonempty, (hplaced.within hk).inBounds, hplaced.line_eq⟩

end Reckoner.Program
