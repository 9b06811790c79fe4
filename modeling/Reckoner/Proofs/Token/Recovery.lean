import Mathlib.Data.List.Forall2
import Reckoner.Proofs.Token.Boundary
import Reckoner.Proofs.Token.Covering

/-!
Recovery from characters that start no token. Such a character is passed over like a blank: with a
space in its place, the text is scanned into the same tokens, at the same places, and the fault is
gone.
-/
namespace Reckoner

def Diagnostic.marks (d : Diagnostic) (offset : Nat) : Prop :=
  d.fault = .unexpectedCharacter ∧ d.span.start ≤ offset ∧ offset < d.span.stop

instance (d : Diagnostic) (offset : Nat) : Decidable (d.marks offset) :=
  inferInstanceAs (Decidable (_ ∧ _))

/-- A text that starts at `offset`, with a space for each character that is reported as
unexpected. -/
def blankOut (diagnostics : List Diagnostic) (offset : Nat) (text : List Char) : List Char :=
  text.mapIdx fun i c => if ∃ d ∈ diagnostics, d.marks (offset + i) then ' ' else c

def blanked (source : String) : String :=
  String.ofList (blankOut (scan source).diagnostics 0 source.toList)

section
variable {diagnostics : List Diagnostic} {offset : Nat} {text : List Char}

theorem blankOut_append (diagnostics : List Diagnostic) (offset : Nat) (left right : List Char) :
    blankOut diagnostics offset (left ++ right) =
      blankOut diagnostics offset left ++ blankOut diagnostics (offset + left.length) right := by
  simp only [blankOut, List.mapIdx_append, Nat.add_assoc, Nat.add_comm left.length]

theorem blankOut_eq_self
    (h : ∀ d ∈ diagnostics, ∀ i, offset ≤ i → i < offset + text.length → ¬ d.marks i) :
    blankOut diagnostics offset text = text := by
  apply List.ext_getElem
  · simp [blankOut]
  · intro i hi hi'
    have hnone : ¬ ∃ d ∈ diagnostics, d.marks (offset + i) := by
      rintro ⟨d, hd, hmarks⟩
      exact h d hd _ (by omega) (by omega) hmarks
    simp [blankOut, hnone]

theorem blankOut_cons {d : Diagnostic} (h : ∀ i, offset ≤ i → ¬ d.marks i)
    (diagnostics : List Diagnostic) (text : List Char) :
    blankOut (d :: diagnostics) offset text = blankOut diagnostics offset text := by
  have hnone (i : Nat) : ¬ d.marks (offset + i) := h _ (Nat.le_add_right _ _)
  simp [blankOut, hnone]

end

def Blanked : List Char → List Char → Prop :=
  List.Forall₂ fun c d => d = c ∨ d = ' '

namespace Blanked

variable {text text' rest rest' : List Char}

theorem refl (text : List Char) : Blanked text text :=
  List.forall₂_same.2 fun _ _ => .inl rfl

theorem blankOut (diagnostics : List Diagnostic) (offset : Nat) (text : List Char) :
    Blanked text (blankOut diagnostics offset text) := by
  refine List.forall₂_iff_get.2 ⟨by simp [Reckoner.blankOut], fun i hi hi' => ?_⟩
  simp only [Reckoner.blankOut, List.get_eq_getElem, List.getElem_mapIdx]
  split
  · exact .inr rfl
  · exact .inl rfl

theorem of_head? (h : Blanked text text') {c : Char} (hc : c ≠ ' ') (hhead : text'.head? = some c) :
    text.head? = some c := by
  cases h with
  | nil => exact hhead
  | cons hd _ =>
    obtain rfl := Option.some.inj hhead
    rcases hd with rfl | rfl
    · rfl
    · exact absurd rfl hc

theorem prefix_of_notMem (h : Blanked text text') {front : List Char} (hspace : ' ' ∉ front)
    (hp : front <+: text') : front <+: text := by
  induction h generalizing front with
  | nil => exact hp
  | @cons c d text text' hd _ ih =>
    cases front with
    | nil => exact List.nil_prefix
    | cons e front =>
      obtain ⟨rfl, hfront⟩ := List.cons_prefix_cons.1 hp
      obtain ⟨hne, hspace⟩ := not_or.1 (mt List.mem_cons.2 hspace)
      rcases hd with rfl | rfl
      · exact (List.prefix_cons_inj e).2 (ih hspace hfront)
      · exact absurd rfl hne

/-- No token but a string goes over a space, so the longest one stays the longest. -/
theorem takes {lexeme : List Char} {kind : Kind} {literal : Option Value}
    (h : Blanked rest rest') (ht : Takes lexeme (.token kind literal) rest) :
    Takes lexeme (.token kind literal) rest' := by
  cases ht with
  | string hbody => exact .string hbody
  | token hquote hl hlongest =>
    refine .token hquote hl ⟨List.prefix_append _ _, fun longer kind literal hp hlonger => ?_⟩
    have hspace : ' ' ∉ longer := by
      refine hlonger.blank_notMem ?_ rfl
      cases lexeme with
      | nil => exact absurd rfl hl.ne_nil
      | cons c more =>
        cases longer with
        | nil => exact absurd rfl hlonger.ne_nil
        | cons d longer =>
          rw [List.cons_append, List.cons_prefix_cons] at hp
          rwa [hp.1]
    have hblanked : Blanked (lexeme ++ rest) (lexeme ++ rest') := List.rel_append (refl _) h
    exact hlongest.2 _ _ _ (hblanked.prefix_of_notMem hspace hp) hlonger

theorem maximalTrivia {trivia lexeme : List Char} (h : Blanked rest rest')
    (hm : IsMaximalTrivia trivia (lexeme ++ rest)) (hne : lexeme ≠ []) :
    IsMaximalTrivia trivia (lexeme ++ rest') :=
  hm.change_rest hne (h.of_head? (by decide))

end Blanked

theorem Span.behind_congr {before before' : List Char} (h : before'.length = before.length)
    (more text : List Char) : behind (before' ++ more) text = behind (before ++ more) text := by
  simp [behind, h]

theorem lineAfter_congr {before before' : List Char}
    (h : before'.count '\n' = before.count '\n') (more : List Char) :
    lineAfter (before' ++ more) = lineAfter (before ++ more) := by
  simp [lineAfter, h]

namespace Tokenises

variable {before before' front text : List Char} {tokens : List Token}
  {diagnostics : List Diagnostic}

theorem congr_before (h : Tokenises before text tokens diagnostics)
    (hlength : before'.length = before.length)
    (hcount : before'.count '\n' = before.count '\n') :
    Tokenises before' text tokens diagnostics := by
  induction h generalizing before' with
  | @done before trivia ht =>
    have hdone := @Tokenises.done before' trivia ht
    rwa [lineAfter_congr hcount, Span.behind_congr hlength] at hdone
  | @token before trivia lexeme rest kind literal tokens diagnostics hm ht _ ih =>
    have hrest := @ih (before' ++ trivia ++ lexeme) (by simp [hlength]) (by simp [hcount])
    have hnext := Tokenises.token hm ht hrest
    rwa [List.append_assoc before', lineAfter_congr hcount, Span.behind_congr hlength,
      ← List.append_assoc before] at hnext
  | @fault before trivia lexeme rest fault tokens diagnostics hm ht _ ih =>
    have hrest := @ih (before' ++ trivia ++ lexeme) (by simp [hlength]) (by simp [hcount])
    have hnext := Tokenises.fault hm ht hrest
    rwa [lineAfter_congr hcount, Span.behind_congr hlength] at hnext

theorem start_le (h : Tokenises before text tokens diagnostics) :
    ∀ d ∈ diagnostics, before.length ≤ d.span.start := by
  obtain ⟨found, line, _, rfl, hlaid⟩ := h.exists_laid rfl
  intro d hd
  exact (hlaid.bounds _ (Finding.mem_diagnostics_iff.1 hd)).1

theorem blankOut_append_eq (h : Tokenises (before ++ front) text tokens diagnostics) :
    blankOut diagnostics before.length (front ++ text) =
      front ++ blankOut diagnostics (before ++ front).length text := by
  rw [blankOut_append, List.length_append]
  congr 1
  refine blankOut_eq_self fun d hd i _ hi hmarks => ?_
  have hstart := h.start_le d hd
  rw [List.length_append] at hstart
  exact absurd (Nat.le_trans hstart hmarks.2.1) (Nat.not_le.2 hi)

theorem blankOut_unexpected {c : Char} {line : Nat}
    (h : Tokenises (before ++ front ++ [c]) text tokens diagnostics) :
    blankOut (⟨line, "", .unexpectedCharacter, .behind (before ++ front) [c]⟩ :: diagnostics)
        before.length (front ++ ([c] ++ text)) =
      front ++ [' '] ++ blankOut diagnostics (before ++ front ++ [c]).length text := by
  have hstop : (before ++ front ++ [c]).length = (before ++ front).length + 1 :=
    List.length_append
  rw [blankOut_append, blankOut_append, ← List.length_append, List.append_assoc, hstop]
  congr 1
  · refine blankOut_eq_self fun d hd i _ hi hmarks => ?_
    have hstart : (before ++ front).length ≤ d.span.start := by
      rcases List.mem_cons.1 hd with rfl | hd
      · exact Nat.le_refl _
      · have := h.start_le d hd
        omega
    have := hmarks.2.1
    rw [List.length_append] at hstart
    omega
  · congr 1
    · simp [Reckoner.blankOut, Diagnostic.marks, Span.behind]
    · refine blankOut_cons (fun i hi hmarks => ?_) _ _
      exact absurd hmarks.2.2 (Nat.not_lt.2 hi)

/-- The induction is over the tokenisation. A character that is marked joins the trivia around it,
and nothing else of the text is touched. -/
theorem blankOut (h : Tokenises before text tokens diagnostics) :
    Tokenises before (blankOut diagnostics before.length text) tokens
      (diagnostics.filter (·.fault = .unterminatedString)) := by
  induction h with
  | @done before trivia ht =>
    rw [blankOut_eq_self (by simp)]
    exact .done ht
  | @token before trivia lexeme rest kind literal tokens diagnostics hm ht hrest ih =>
    have hblanked := Blanked.blankOut diagnostics (before ++ trivia ++ lexeme).length rest
    rw [List.append_assoc before] at hrest
    rw [← List.append_assoc, hrest.blankOut_append_eq, ← List.append_assoc before,
      List.append_assoc]
    exact .token (hblanked.maximalTrivia hm ht.ne_nil) (hblanked.takes ht) ih
  | @fault before trivia lexeme rest fault tokens diagnostics hm ht hrest ih =>
    cases ht with
    | @unterminated body hbody =>
      rw [blankOut_cons fun i _ hmarks => by cases hmarks.1]
      rw [List.append_assoc before] at hrest
      rw [← List.append_assoc, hrest.blankOut_append_eq, ← List.append_assoc before,
        List.append_assoc]
      exact .fault hm (.unterminated hbody) ih
    | @unexpected c hc hnone =>
      have htrivia : IsTrivia false (trivia ++ [' ']) :=
        (hm.isTrivia (List.cons_ne_nil c [])).append (.blank (by decide) .nil)
      have hnewline : c ≠ '\n' := by
        rintro rfl
        exact absurd hm.stops.1 (by decide)
      rw [blankOut_unexpected hrest]
      exact of_trivia htrivia (ih.congr_before (by simp) (by simp [hnewline]))

end Tokenises

/-- A character that starts no token is passed over, and the scan goes on as behind trivia. With a
space in the place of each such character, the text is scanned into the same tokens; of the faults,
a string that is left open is still reported, as it was, and nothing else is. -/
theorem scan_blanked (source : String) :
    scan (blanked source) =
        ⟨(scan source).tokens,
          (scan source).diagnostics.filter (·.fault = .unterminatedString)⟩ ∧
      Fault.unterminatedString.message = "Unterminated string." ∧
      Fault.unexpectedCharacter.message = "Unexpected character." := by
  refine ⟨scan_of_tokenises ?_, rfl, rfl⟩
  rw [blanked, String.toList_ofList]
  exact (tokenises_scan source).blankOut

example : blanked "1@/#/ $\n\"@\"é.2\"^" = "1 / /  \n\"@\" .2\"^" := by
  decide +kernel

end Reckoner
