import Reckoner.Proofs.Program.Places
import Reckoner.Proofs.Token.Boundary

/-!
The newline at the end of a text. It is trivia behind everything but an open string, which takes it
in: the end token comes a character and a line later, and all else stays where it is.
-/
namespace Reckoner

def Token.overNewline (t : Token) : Token :=
  if t.kind = .eof then t.shift 1 1 else t

/-- A fault of the scan where a newline is put behind its text: an open string takes it in. -/
def Diagnostic.overNewline (d : Diagnostic) : Diagnostic :=
  if d.fault = .unterminatedString then { d with span := ⟨d.span.start, d.span.stop + 1⟩ } else d

namespace Token

theorem role_overNewline (t : Token) : t.overNewline.role = t.role := by
  unfold overNewline
  split <;> rfl

theorem overNewline_of_ne {t : Token} (h : t.kind ≠ .eof) : t.overNewline = t :=
  if_neg h

theorem overNewline_eof (before : List Char) :
    overNewline ⟨.eof, "", none, lineAfter before, .behind before []⟩ =
      ⟨.eof, "", none, lineAfter (before ++ ['\n']), .behind (before ++ ['\n']) []⟩ := by
  simp [overNewline, shift, Span.shift, Span.behind, lineAfter, Nat.add_assoc]

end Token

namespace Diagnostic

theorem overNewline_of_ne {d : Diagnostic} (h : d.fault ≠ .unterminatedString) :
    d.overNewline = d :=
  if_neg h

theorem overNewline_unterminated (line : Nat) (before text : List Char) :
    overNewline ⟨line, "", .unterminatedString, .behind before text⟩ =
      ⟨line, "", .unterminatedString, .behind before (text ++ ['\n'])⟩ := by
  simp [overNewline, Span.behind, Nat.add_assoc]

end Diagnostic

theorem Takes.unterminated_append_newline {lexeme rest : List Char}
    (h : Takes lexeme (.fault .unterminatedString) rest) :
    Takes (lexeme ++ ['\n']) (.fault .unterminatedString) [] := by
  cases h with
  | unterminated hbody => exact .unterminated (by simpa using hbody)

namespace Tokenises

variable {before text : List Char} {tokens : List Token} {diagnostics : List Diagnostic}

theorem of_nil (h : Tokenises before [] tokens diagnostics) :
    tokens = [⟨.eof, "", none, lineAfter before, .behind before []⟩] ∧ diagnostics = [] := by
  generalize hnil : [] = text at h
  cases h with
  | done ht => simp [← hnil]
  | token hm ht _ => simp [ht.ne_nil] at hnil
  | fault hm ht _ => simp [ht.ne_nil] at hnil

/-- The induction is over the tokenisation. The newline counts in two cases: where nothing but
trivia is left, and where a string is open. -/
theorem final_newline (h : Tokenises before text tokens diagnostics) :
    Tokenises before (text ++ ['\n']) (tokens.map Token.overNewline)
      (diagnostics.map Diagnostic.overNewline) := by
  induction h with
  | @done before trivia ht =>
    rw [List.map_singleton, Token.overNewline_eof, List.append_assoc]
    exact .done (ht.append_newline.of_closed true)
  | @token before trivia lexeme rest kind literal tokens diagnostics hm ht _ ih =>
    have hnext := Tokenises.token (hm.append_newline ht.ne_nil []) (ht.append_newline (by simp) [])
      ih
    rw [List.map_cons, Token.overNewline_of_ne ht.lexes.kind_ne_eof]
    simpa only [List.append_assoc] using hnext
  | @fault before trivia lexeme rest fault tokens diagnostics hm ht h ih =>
    by_cases hfault : fault = .unterminatedString
    · -- Nothing comes behind the open string, so the newline is its last character.
      subst hfault
      obtain ⟨_, rfl⟩ := ht.of_unterminated
      obtain ⟨rfl, rfl⟩ := h.of_nil
      have hm := hm.append_newline ht.ne_nil []
      rw [List.nil_append, ← List.append_nil ['\n'], ← List.append_assoc] at hm
      have hend := @Tokenises.done (before ++ trivia ++ (lexeme ++ ['\n'])) [] .nil
      have hnext := Tokenises.fault hm ht.unterminated_append_newline hend
      rw [List.map_singleton, List.map_singleton, Token.overNewline_eof,
        Diagnostic.overNewline_unterminated]
      simpa only [List.append_nil, List.append_assoc] using hnext
    · have hnext := Tokenises.fault (hm.append_newline ht.ne_nil [])
        (ht.append_newline (by simpa using hfault) []) ih
      rw [List.map_cons, Diagnostic.overNewline_of_ne hfault]
      simpa only [List.append_assoc] using hnext

end Tokenises

theorem scan_final_newline (source : String) :
    scan (source ++ "\n") =
      ⟨(scan source).tokens.map Token.overNewline,
        (scan source).diagnostics.map Diagnostic.overNewline⟩ := by
  apply scan_of_tokenises
  simpa using (tokenises_scan source).final_newline

theorem scanned_final_newline (source : String) : scanned (source ++ "\n") = scanned source := by
  have htokens := congrArg Scan.tokens (scan_final_newline source)
  rw [scan_tokens, scan_tokens, List.map_append] at htokens
  rw [List.append_inj_left' htokens rfl]
  refine (List.map_congr_left fun t ht => ?_).trans (List.map_id _)
  exact Token.overNewline_of_ne (lexical_of_mem_scanned ht).kind_ne_eof

namespace Program

variable {source : String}

theorem diagnostics_final_newline :
    (scan (source ++ "\n")).diagnostics = [] ↔ (scan source).diagnostics = [] := by
  rw [scan_final_newline, List.map_eq_nil_iff]

theorem parse_final_newline {tree : Expr} :
    parse (source ++ "\n") = .ok tree ↔ parse source = .ok tree := by
  rw [parse_eq_ok_iff, parse_eq_ok_iff, diagnostics_final_newline, parse_scan_eq_ok_iff,
    parse_scan_eq_ok_iff, scanned_final_newline]

theorem run_final_newline_of_diagnostics (h : (scan source).diagnostics ≠ []) :
    run (source ++ "\n") =
      .error (.illFormed ((scan source).diagnostics.map Diagnostic.overNewline)) := by
  have hne := mt diagnostics_final_newline.1 h
  rw [run_of_parse_error (parse_of_diagnostics hne), scan_final_newline]

theorem run_final_newline_of_firstFault (hscan : (scan source).diagnostics = []) {fault : Fault}
    {i : Nat} {t : Token}
    (hf : (Viability.operand 0).firstFault 0 (scan source).tokens = some (fault, i))
    (ht : (scan source).tokens[i]? = some t) :
    run (source ++ "\n") =
      .error (.illFormed [fault.report t.overNewline.line t.overNewline.span]) := by
  rw [run_eq_illFormed_iff]
  refine .inr ⟨diagnostics_final_newline.2 hscan, _, ?_, rfl⟩
  have htokens : (scan (source ++ "\n")).tokens = (scan source).tokens.map Token.overNewline := by
    rw [scan_final_newline]
  have hnext : (scan (source ++ "\n")).tokens[i]? = some t.overNewline := by
    rw [htokens, List.getElem?_map, ht]
    rfl
  -- The check stops at the same token, wherever that one is now.
  rw [← Viability.firstFault_map Token.role_overNewline, ← htokens] at hf
  rw [Expr.parse_of_firstFault hf, Expr.placeAt_of_getElem? hnext]

/-- A newline behind a program changes nothing but the places at the end of its text. The value is
the same, and so is a runtime error with its token. The faults of the scan are the same, but for the
string that is left open, which is a character longer. A fault found while parsing is that of the
same token; if it is the end token, it is reported a line and a character later. -/
theorem run_append_newline (source : String) :
    (∀ value, run (source ++ "\n") = .ok value ↔ run source = .ok value) ∧
    (∀ error, run (source ++ "\n") = .error (.runtime error) ↔
      run source = .error (.runtime error)) ∧
    ((scan source).diagnostics ≠ [] →
      run source = .error (.illFormed (scan source).diagnostics) ∧
      run (source ++ "\n") =
        .error (.illFormed ((scan source).diagnostics.map Diagnostic.overNewline))) ∧
    ((scan source).diagnostics = [] → ∀ diagnostics,
      run source = .error (.illFormed diagnostics) → ∃ fault i t,
        (Viability.operand 0).firstFault 0 (scan source).tokens = some (fault, i) ∧
        (scan source).tokens[i]? = some t ∧ diagnostics = [fault.report t.line t.span] ∧
        (t.kind ≠ .eof → run (source ++ "\n") = run source) ∧
        (t.kind = .eof → run (source ++ "\n") = .error (.illFormed
          [fault.report (t.line + 1) ⟨t.span.start + 1, t.span.stop + 1⟩]))) := by
  refine ⟨fun value => ?_, fun error => ?_, fun hscan => ?_, fun hscan diagnostics h => ?_⟩
  · simp only [run_eq_ok_iff, parse_final_newline]
  · simp only [run_eq_runtime_iff, parse_final_newline]
  · exact ⟨run_of_parse_error (parse_of_diagnostics hscan),
      run_final_newline_of_diagnostics hscan⟩
  · obtain ⟨fault, i, t, hf, ht, rfl⟩ := exists_offending_of_run h hscan
    have hnext := run_final_newline_of_firstFault hscan hf ht
    refine ⟨fault, i, t, hf, ht, rfl, fun hk => ?_, fun hk => ?_⟩
    · rw [hnext, h, Token.overNewline_of_ne hk]
    · rw [hnext, Token.overNewline, if_pos hk]
      rfl

example :
    run "(1" = .error (.illFormed [Fault.expectedRightParen.report 1 ⟨2, 2⟩]) ∧
      run "(1\n" = .error (.illFormed [Fault.expectedRightParen.report 2 ⟨3, 3⟩]) := by
  decide +kernel

end Program
end Reckoner
