import Reckoner.Proofs.Token.Scanning
import Reckoner.Proofs.Token.Tokenising

/-!
Newlines as boundaries. No token but a string goes over a newline, so a text that leaves no string
open is scanned by itself, and what comes behind the newline is scanned as from a fresh start.
-/
namespace Reckoner

def Span.shift (characters : Nat) (span : Span) : Span :=
  ⟨span.start + characters, span.stop + characters⟩

def Token.shift (characters lines : Nat) (t : Token) : Token :=
  { t with line := t.line + lines, span := t.span.shift characters }

def Diagnostic.shift (characters lines : Nat) (d : Diagnostic) : Diagnostic :=
  { d with line := d.line + lines, span := d.span.shift characters }

theorem Span.behind_append (front before text : List Char) :
    behind (front ++ before) text = (behind before text).shift front.length := by
  simp only [behind, shift, List.length_append, Span.mk.injEq]
  omega

theorem lineAfter_append (front text : List Char) :
    lineAfter (front ++ text) = lineAfter text + front.count '\n' := by
  simp only [lineAfter, List.count_append]
  omega

theorem Lexes.prefix_of_newline {lexeme : List Char} {kind : Kind} {literal : Option Value}
    (h : Lexes lexeme kind literal) {c : Char} (hc : c ≠ '"') {text after : List Char}
    (hp : lexeme <+: c :: text ++ '\n' :: after) : lexeme <+: c :: text := by
  have hnewline : '\n' ∉ lexeme := by
    refine h.blank_notMem ?_ rfl
    cases lexeme with
    | nil => exact absurd rfl h.ne_nil
    | cons d more =>
      rw [List.cons_append, List.cons_prefix_cons] at hp
      simp [hp.1, hc]
  rcases List.prefix_or_prefix_of_prefix hp (List.prefix_append _ _) with hshort | ⟨more, rfl⟩
  · exact hshort
  · rw [List.prefix_append_right_inj, List.prefix_cons_iff] at hp
    rcases hp with rfl | ⟨more, rfl, _⟩
    · simp
    · simp at hnewline

/-- What is taken off a text is also taken off it in front of a newline, but for a string that is
left open. -/
theorem Takes.append_newline {lexeme rest : List Char} {reading : Reading}
    (h : Takes lexeme reading rest) (hr : reading ≠ .fault .unterminatedString)
    (after : List Char) : Takes lexeme reading (rest ++ '\n' :: after) := by
  cases h with
  | string hbody => exact .string hbody
  | unterminated => exact absurd rfl hr
  | token hquote hl hlongest =>
    refine .token hquote hl ⟨List.prefix_append _ _, fun longer kind literal hp h => ?_⟩
    cases lexeme with
    | nil => exact absurd rfl hl.ne_nil
    | cons c more =>
      rw [← List.append_assoc] at hp
      exact hlongest.2 _ _ _ (h.prefix_of_newline (by simpa using hquote) hp) h
  | unexpected hc hnone =>
    refine .unexpected hc fun lexeme kind literal hp h => ?_
    exact hnone _ _ _ (h.prefix_of_newline hc hp) h

theorem IsTrivia.append_newline {trivia : List Char} (h : IsTrivia true trivia) :
    IsTrivia false (trivia ++ ['\n']) := by
  induction h with
  | nil => exact .blank (by decide) .nil
  | blank hc _ ih => exact .blank hc ih
  | comment hbody _ ih => simpa using IsTrivia.comment hbody ih
  | lastComment _ hbody => exact .comment hbody .nil

theorem IsMaximalTrivia.append_newline {trivia lexeme rest : List Char}
    (h : IsMaximalTrivia trivia (lexeme ++ rest)) (hne : lexeme ≠ []) (after : List Char) :
    IsMaximalTrivia trivia (lexeme ++ (rest ++ '\n' :: after)) := by
  refine h.change_rest hne fun hslash => ?_
  cases rest with
  | nil => simp at hslash
  | cons c rest => exact hslash

namespace Tokenises

variable {before text after : List Char} {tokens tokens' : List Token}
  {diagnostics diagnostics' : List Diagnostic}

theorem shift (h : Tokenises before text tokens diagnostics) (front : List Char) :
    Tokenises (front ++ before) text
      (tokens.map (Token.shift front.length (front.count '\n')))
      (diagnostics.map (Diagnostic.shift front.length (front.count '\n'))) := by
  induction h with
  | @done before trivia ht =>
    have hdone : Tokenises (front ++ before) trivia _ _ := .done ht
    simpa only [List.map_cons, List.map_nil, Token.shift, List.append_assoc, lineAfter_append,
      Span.behind_append] using hdone
  | @token before trivia lexeme rest kind literal tokens diagnostics hm ht _ ih =>
    rw [← List.append_assoc, ← List.append_assoc] at ih
    have hnext := Tokenises.token hm ht ih
    simpa only [List.map_cons, Token.shift, List.append_assoc, lineAfter_append,
      Span.behind_append] using hnext
  | @fault before trivia lexeme rest fault tokens diagnostics hm ht _ ih =>
    rw [← List.append_assoc, ← List.append_assoc] at ih
    have hnext := Tokenises.fault hm ht ih
    simpa only [List.map_cons, Diagnostic.shift, List.append_assoc, lineAfter_append,
      Span.behind_append] using hnext

theorem of_trivia {trivia : List Char} (hf : IsTrivia false trivia)
    (h : Tokenises (before ++ trivia) text tokens diagnostics) :
    Tokenises before (trivia ++ text) tokens diagnostics := by
  generalize hfront : before ++ trivia = front at h
  cases h with
  | done ht =>
    have hdone : Tokenises before (trivia ++ text) _ _ := .done (hf.append ht)
    rwa [← List.append_assoc, hfront] at hdone
  | token hm ht h =>
    have hm : IsMaximalTrivia _ _ := .of_stops (hf.append hm.1) hm.stops
    rw [← hfront, List.append_assoc before] at h
    simpa only [← hfront, List.append_assoc] using Tokenises.token hm ht h
  | fault hm ht h =>
    have hm : IsMaximalTrivia _ _ := .of_stops (hf.append hm.1) hm.stops
    rw [← hfront, List.append_assoc before] at h
    simpa only [← hfront, List.append_assoc] using Tokenises.fault hm ht h

theorem append_newline (h : Tokenises before text tokens diagnostics)
    (hd : ∀ d ∈ diagnostics, d.fault ≠ .unterminatedString)
    (h' : Tokenises (before ++ text ++ ['\n']) after tokens' diagnostics') :
    Tokenises before (text ++ '\n' :: after)
      (tokens.filter (·.kind ≠ .eof) ++ tokens') (diagnostics ++ diagnostics') := by
  induction h with
  | @done before trivia ht =>
    -- The end token is left out, and the last trivia, with the newline, stands in front of `after`.
    rw [List.append_assoc] at h'
    simpa using of_trivia ht.append_newline h'
  | @token before trivia lexeme rest kind literal tokens diagnostics hm ht _ ih =>
    have hrest := ih hd (by simpa only [List.append_assoc] using h')
    have hm := hm.append_newline ht.ne_nil after
    have ht := ht.append_newline (by simp) after
    have hkind : kind ≠ .eof := ht.lexes.kind_ne_eof
    simpa [hkind] using Tokenises.token hm ht hrest
  | @fault before trivia lexeme rest fault tokens diagnostics hm ht _ ih =>
    obtain ⟨hfault, hd⟩ := List.forall_mem_cons.1 hd
    have hrest := ih hd (by simpa only [List.append_assoc] using h')
    have hm := hm.append_newline ht.ne_nil after
    have ht := ht.append_newline (by simpa using hfault) after
    simpa using Tokenises.fault hm ht hrest

end Tokenises

/-- A newline that no string runs over is a boundary: what comes first is scanned as if the text
ended there, and the rest as a text of its own, so many characters and lines further on. -/
theorem scan_append_newline (a b : String)
    (h : ∀ d ∈ (scan a).diagnostics, d.fault ≠ .unterminatedString) :
    scan (a ++ "\n" ++ b) =
      ⟨(scan a).tokens.filter (·.kind ≠ .eof) ++
          (scan b).tokens.map (Token.shift (a.toList.length + 1) (a.toList.count '\n' + 1)),
        (scan a).diagnostics ++
          (scan b).diagnostics.map
            (Diagnostic.shift (a.toList.length + 1) (a.toList.count '\n' + 1))⟩ := by
  apply scan_of_tokenises
  have hb := (tokenises_scan b).shift (a.toList ++ ['\n'])
  have hab := (tokenises_scan a).append_newline h (by simpa using hb)
  simpa using hab

theorem scan_append_newline_of_comment :
    (∀ d ∈ (scan "@ 1 // \"").diagnostics, d.fault ≠ .unterminatedString) ∧
      scan ("@ 1 // \"" ++ "\n" ++ "-\"\n") =
        ⟨[⟨.number, "1", some (.number (Number.ofDecimal ⟨1, 0⟩)), 1, ⟨2, 3⟩⟩,
            ⟨.minus, "-", none, 2, ⟨9, 10⟩⟩, ⟨.eof, "", none, 3, ⟨12, 12⟩⟩],
          [Fault.unexpectedCharacter.report 1 ⟨0, 1⟩,
            Fault.unterminatedString.report 2 ⟨10, 12⟩]⟩ := by
  have h : ∀ d ∈ (scan "@ 1 // \"").diagnostics, d.fault ≠ .unterminatedString := by
    decide +kernel
  refine ⟨h, (scan_append_newline "@ 1 // \"" "-\"\n" h).trans ?_⟩
  decide +kernel

end Reckoner
