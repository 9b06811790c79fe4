import Mathlib.Control.Monad.Basic
import Reckoner.Program
import Reckoner.Proofs.Expr.Parsing
import Reckoner.Proofs.Token.Scanning

/-!
Programs stage by stage. A text that scans without a fault is parsed by a derivation of the tokens
before the end token, and a tree that is parsed is evaluated.
-/
namespace Reckoner.Program

variable {source : String} {tree : Expr}

theorem mapError_eq_ok_iff {ε ε' α : Type} {x : Except ε α} {f : ε → ε'} {a : α} :
    x.mapError f = .ok a ↔ x = .ok a := by
  cases x <;> simp [Except.mapError]

theorem mapError_eq_error_iff {ε ε' α : Type} {x : Except ε α} {f : ε → ε'} {e' : ε'} :
    x.mapError f = .error e' ↔ ∃ e, x = .error e ∧ e' = f e := by
  cases x <;> simp [Except.mapError, eq_comm]

theorem parse_eq_ok_iff :
    parse source = .ok tree ↔
      (scan source).diagnostics = [] ∧ Expr.parse (scan source).tokens = .ok tree := by
  unfold parse ofTokens
  obtain ⟨tokens, diagnostics⟩ := scan source
  cases diagnostics with
  | nil => simpa using mapError_eq_ok_iff
  | cons => simp

/-- The only end token that is scanned is the last one. -/
theorem parse_scan_eq_ok_iff :
    Expr.parse (scan source).tokens = .ok tree ↔
      Derives (.chain .equality) (scanned source) tree := by
  rw [scan_tokens]
  constructor
  · intro h
    obtain ⟨before, t, after, htokens, hk, hd⟩ := Expr.derives_of_parse h
    rcases List.append_eq_append_iff.1 htokens with ⟨more, rfl, hmore⟩ | ⟨more, hscanned, hmore⟩
    · cases more with
      | nil => rwa [List.append_nil] at hd
      | cons u more => simp at hmore
    · cases more with
      | nil => rwa [hscanned, List.append_nil]
      | cons u more =>
        obtain ⟨rfl, _⟩ := List.cons.inj hmore
        have hmem : t ∈ scanned source := by simp [hscanned]
        exact absurd hk (lexical_of_mem_scanned hmem).kind_ne_eof
  · intro h
    exact Expr.parse_of_derives h rfl

theorem run_of_parse (h : parse source = .ok tree) :
    run source = tree.eval.mapError .runtime := by
  rw [run, h]
  rfl

theorem run_of_parse_error {e : Error} (h : parse source = .error e) : run source = .error e := by
  rw [run, h]
  rfl

theorem illFormed_of_parse {e : Error} (h : parse source = .error e) :
    ∃ diagnostics, e = .illFormed diagnostics := by
  unfold parse ofTokens at h
  split at h
  next tokens _ =>
    cases hparse : Expr.parse tokens with
    | ok tree =>
      rw [hparse] at h
      cases h
    | error d =>
      rw [hparse] at h
      cases h
      exact ⟨_, rfl⟩
  next =>
    cases h
    exact ⟨_, rfl⟩

theorem run_eq_ok_iff {value : Value} :
    run source = .ok value ↔ ∃ tree, parse source = .ok tree ∧ tree.eval = .ok value := by
  constructor
  · intro h
    cases hparse : parse source with
    | error e => cases (run_of_parse_error hparse).symm.trans h
    | ok tree =>
      rw [run_of_parse hparse, mapError_eq_ok_iff] at h
      exact ⟨tree, rfl, h⟩
  · rintro ⟨tree, hparse, heval⟩
    rw [run_of_parse hparse, heval]
    rfl

theorem run_eq_runtime_iff {error : RuntimeError} :
    run source = .error (.runtime error) ↔
      ∃ tree, parse source = .ok tree ∧ tree.eval = .error error := by
  constructor
  · intro h
    cases hparse : parse source with
    | error e =>
      obtain ⟨diagnostics, rfl⟩ := illFormed_of_parse hparse
      cases (run_of_parse_error hparse).symm.trans h
    | ok tree =>
      rw [run_of_parse hparse, mapError_eq_error_iff] at h
      obtain ⟨r, heval, hr⟩ := h
      cases hr
      exact ⟨tree, rfl, heval⟩
  · rintro ⟨tree, hparse, heval⟩
    rw [run_of_parse hparse, heval]
    rfl

theorem parse_of_diagnostics (h : (scan source).diagnostics ≠ []) :
    parse source = .error (.illFormed (scan source).diagnostics) := by
  unfold parse
  rcases hscan : scan source with ⟨tokens, _ | ⟨d, diagnostics⟩⟩
  · rw [hscan] at h
    exact absurd rfl h
  · rfl

theorem parse_of_scan (h : (scan source).diagnostics = []) :
    parse source = ofTokens (scan source).tokens := by
  unfold parse
  rcases hscan : scan source with ⟨tokens, diagnostics⟩
  rw [hscan] at h
  cases h
  rfl

theorem run_eq_illFormed_iff_parse {diagnostics : List Diagnostic} :
    run source = .error (.illFormed diagnostics) ↔
      parse source = .error (.illFormed diagnostics) := by
  cases hparse : parse source with
  | error e =>
    rw [run_of_parse_error hparse, Except.error.injEq, Except.error.injEq]
  | ok tree =>
    rw [run_of_parse hparse]
    cases tree.eval <;> simp [Except.mapError]

theorem run_eq_illFormed_iff {diagnostics : List Diagnostic} :
    run source = .error (.illFormed diagnostics) ↔
      diagnostics ≠ [] ∧ (scan source).diagnostics = diagnostics ∨
      (scan source).diagnostics = [] ∧
        ∃ d, Expr.parse (scan source).tokens = .error d ∧ diagnostics = [d] := by
  rw [run_eq_illFormed_iff_parse]
  by_cases h : (scan source).diagnostics = []
  · rw [parse_of_scan h, ofTokens, mapError_eq_error_iff]
    simp [h, eq_comm]
  · rw [parse_of_diagnostics h]
    simp only [h, Except.error.injEq, Error.illFormed.injEq, false_and, or_false]
    exact ⟨fun heq => ⟨heq ▸ h, heq⟩, And.right⟩

theorem ne_nil_of_run {diagnostics : List Diagnostic}
    (h : run source = .error (.illFormed diagnostics)) : diagnostics ≠ [] := by
  rcases run_eq_illFormed_iff.1 h with ⟨hne, _⟩ | ⟨_, d, _, rfl⟩
  · exact hne
  · exact List.cons_ne_nil d []

end Reckoner.Program
