import Reckoner.Proofs.Token.Scanning
import Reckoner.Proofs.Token.Tokenising
import Reckoner.Token.Grammar

/-!
No character of a text is lost, doubled or moved by scanning. A tokenisation lays its findings out
along the text, one behind the other with trivia between them; the rest follows from that.
-/
namespace Reckoner

namespace Span

theorem stop_behind (before text : List Char) :
    (behind before text).stop = (before ++ text).length :=
  List.length_append.symm

theorem slice_behind (before text after : List Char) :
    (behind before text).slice (before ++ (text ++ after)) = text := by
  simp [slice, behind, List.extract]

theorem slice_append_drop {start stop : Nat} (h : start ≤ stop) (text : List Char) :
    Span.slice ⟨start, stop⟩ text ++ text.drop stop = text.drop start := by
  have hdrop : text.drop stop = (text.drop start).drop (stop - start) := by
    rw [List.drop_drop, Nat.add_sub_cancel' h]
  rw [hdrop]
  exact List.take_append_drop _ _

theorem take_append_slice {start stop : Nat} (h : start ≤ stop) (text : List Char) :
    text.take start ++ Span.slice ⟨start, stop⟩ text = text.take stop := by
  have htake := @List.take_add _ text start (stop - start)
  rw [Nat.add_sub_cancel' h] at htake
  exact htake.symm

end Span

/-- A token has its own characters for a lexeme, and nothing comes behind a string that is not
closed. -/
def Finding.Faithful (text : List Char) : Finding → Prop
  | token t => t.kind ≠ .eof ∧ t.lexeme.toList = t.span.slice text
  | diagnostic d => d.fault = .unterminatedString →
      text[d.span.start]? = some '"' ∧ d.span.stop = text.length

/-- From `start` on, the findings lie one behind the other, with trivia between them. -/
inductive Laid (text : List Char) : Nat → List Finding → Prop where
  | done {start : Nat} :
      start ≤ text.length → IsTrivia true (Span.slice ⟨start, text.length⟩ text) →
      Laid text start []
  | cons {start : Nat} {f : Finding} {found : List Finding} :
      start ≤ f.span.start → f.span.start < f.span.stop → f.span.stop ≤ text.length →
      IsTrivia false (Span.slice ⟨start, f.span.start⟩ text) → f.Faithful text →
      Laid text f.span.stop found → Laid text start (f :: found)

namespace Laid

variable {text : List Char} {start : Nat} {found : List Finding}

theorem bounds (h : Laid text start found) :
    ∀ f ∈ found, start ≤ f.span.start ∧ f.span.start < f.span.stop ∧
      f.span.stop ≤ text.length := by
  induction h with
  | done => simp
  | @cons start f found hstart hpos hstop _ _ _ ih =>
    intro g hg
    rcases List.mem_cons.1 hg with rfl | hg
    · exact ⟨hstart, hpos, hstop⟩
    · obtain ⟨hle, hrest⟩ := ih g hg
      exact ⟨by omega, hrest⟩

theorem faithful (h : Laid text start found) : ∀ f ∈ found, f.Faithful text := by
  induction h with
  | done => simp
  | cons _ _ _ _ hf _ ih => exact List.forall_mem_cons.2 ⟨hf, ih⟩

theorem ascend (h : Laid text start found) :
    found.Pairwise fun f g => f.span.Precedes g.span := by
  induction h with
  | done => exact .nil
  | @cons start f found _ hpos _ _ _ hrest ih =>
    refine .cons (fun g hg => ?_) ih
    have hle := (hrest.bounds g hg).1
    exact ⟨Nat.lt_of_lt_of_le hpos hle, hle⟩

theorem gaps_trivia (h : Laid text start found) :
    ∀ gap ∈ Finding.gaps start text.length found,
      gap.start ≤ gap.stop ∧ IsTrivia (gap.stop == text.length) (gap.slice text) := by
  induction h with
  | done hstart htrivia =>
    intro gap hgap
    rw [List.mem_singleton.1 hgap, beq_self_eq_true]
    exact ⟨hstart, htrivia⟩
  | @cons start f found hstart hpos hstop htrivia _ _ ih =>
    refine List.forall_mem_cons.2 ⟨⟨hstart, ?_⟩, ih⟩
    have hinner : (f.span.start == text.length) = false := by
      rw [beq_eq_false_iff_ne]
      omega
    rwa [hinner]

theorem interleave_eq (h : Laid text start found) :
    Finding.interleave text start found = text.drop start := by
  induction h with
  | @done start hstart =>
    have := Span.slice_append_drop hstart text
    rwa [List.drop_length, List.append_nil] at this
  | @cons start f found hstart hpos hstop _ hf _ ih =>
    have hspelling : f.spelling text = f.span.slice text := by
      cases f with
      | token t => exact hf.2
      | diagnostic d => rfl
    rw [Finding.interleave, hspelling, ih, Span.slice_append_drop (Nat.le_of_lt hpos),
      Span.slice_append_drop hstart]

theorem getLast?_eq (h : Laid text start found) {f : Finding} (hf : f ∈ found)
    (hstop : f.span.stop = text.length) : found.getLast? = some f := by
  induction h with
  | done => cases hf
  | @cons start g found _ _ _ _ _ hrest ih =>
    cases found with
    | nil => rw [List.mem_singleton.1 hf, List.getLast?_singleton]
    | cons g' found =>
      rw [List.getLast?_cons_cons]
      rcases List.mem_cons.1 hf with rfl | hf
      · -- The next finding would have to start where the text has ended.
        have := hrest.bounds g' List.mem_cons_self
        omega
      · exact ih hf

theorem unterminated_once (h : Laid text start found) :
    (found.filterMap Finding.diagnostic?).countP (·.fault = .unterminatedString) ≤ 1 := by
  induction h with
  | done => exact Nat.zero_le _
  | @cons start f found _ _ _ _ hf hrest ih =>
    cases f with
    | token t => exact ih
    | diagnostic d =>
      rw [List.filterMap_cons_some (by rfl)]
      by_cases hd : d.fault = .unterminatedString
      · -- Nothing fits behind it.
        have hstop := (hf hd).2
        have hnil : found = [] := by
          apply List.eq_nil_iff_forall_not_mem.2
          intro g hg
          have := hrest.bounds g hg
          change d.span.stop ≤ _ ∧ _ at this
          omega
        rw [hnil]
        exact List.countP_le_length
      · rw [List.countP_cons_of_neg (by simpa using hd)]
        exact ih

end Laid

theorem Laid.of_takes {before trivia lexeme rest whole : List Char} {reading : Reading}
    {f : Finding} {found : List Finding} (hm : IsMaximalTrivia trivia (lexeme ++ rest))
    (ht : Takes lexeme reading rest) (hspan : f.span = .behind (before ++ trivia) lexeme)
    (hf : f.Faithful whole) (hw : whole = before ++ (trivia ++ (lexeme ++ rest)))
    (h : Laid whole (before ++ trivia ++ lexeme).length found) :
    Laid whole before.length (f :: found) := by
  have hpos := List.length_pos_iff.2 ht.ne_nil
  have hgap : (⟨before.length, f.span.start⟩ : Span) = .behind before trivia := by
    rw [hspan, Span.behind, Span.behind, List.length_append]
  have hstop : f.span.stop = (before ++ trivia ++ lexeme).length := by
    rw [hspan, Span.stop_behind]
  have hlength : whole.length = f.span.stop + rest.length := by
    simp [hw, hstop, Nat.add_assoc]
  have hstart : f.span.stop = f.span.start + lexeme.length := by
    rw [hspan]
    rfl
  refine .cons ?_ (by omega) (by omega) ?_ hf (hstop ▸ h)
  · have := congrArg Span.stop hgap
    simp only [Span.behind] at this
    omega
  · rw [hgap, hw, Span.slice_behind]
    exact hm.isTrivia ht.ne_nil

theorem Tokenises.exists_laid {before text whole : List Char} {tokens : List Token}
    {diagnostics : List Diagnostic} (h : Tokenises before text tokens diagnostics)
    (hw : whole = before ++ text) :
    ∃ found line,
      tokens = found.filterMap Finding.token? ++
        [⟨.eof, "", none, line, ⟨whole.length, whole.length⟩⟩] ∧
      diagnostics = found.filterMap Finding.diagnostic? ∧ Laid whole before.length found := by
  induction h with
  | @done before trivia ht =>
    subst hw
    refine ⟨[], _, rfl, rfl, .done (by simp) ?_⟩
    have hslice := Span.slice_behind before trivia []
    rw [List.append_nil, Span.behind, ← List.length_append] at hslice
    rwa [hslice]
  | @token before trivia lexeme rest kind literal tokens diagnostics hm ht _ ih =>
    obtain ⟨found, line, htokens, hdiagnostics, hlaid⟩ := ih (by simp [hw])
    have hslice := Span.slice_behind (before ++ trivia) lexeme rest
    rw [List.append_assoc, ← hw] at hslice
    have hfaithful : (Finding.token ⟨kind, String.ofList lexeme, literal,
        lineAfter (before ++ trivia ++ lexeme), .behind (before ++ trivia) lexeme⟩).Faithful
        whole := by
      refine ⟨ht.lexes.kind_ne_eof, ?_⟩
      rw [String.toList_ofList, hslice]
    refine ⟨_ :: found, line, ?_, ?_, hlaid.of_takes hm ht rfl hfaithful hw⟩
    · rw [htokens, List.filterMap_cons_some (by rfl), List.cons_append]
    · rwa [List.filterMap_cons_none (by rfl)]
  | @fault before trivia lexeme rest fault tokens diagnostics hm ht _ ih =>
    obtain ⟨found, line, htokens, hdiagnostics, hlaid⟩ := ih (by simp [hw])
    have hfaithful : (Finding.diagnostic ⟨lineAfter (before ++ trivia), "", fault,
        .behind (before ++ trivia) lexeme⟩).Faithful whole := by
      rintro rfl
      obtain ⟨hquote, rfl⟩ := ht.of_unterminated
      rw [List.append_nil, ← List.append_assoc] at hw
      constructor
      · simp [hw, Span.behind, List.getElem?_append_right, ← List.head?_eq_getElem?, hquote]
      · rw [Span.stop_behind, hw]
    refine ⟨_ :: found, line, ?_, ?_, hlaid.of_takes hm ht rfl hfaithful hw⟩
    · rwa [List.filterMap_cons_none (by rfl)]
    · rw [hdiagnostics, List.filterMap_cons_some (by rfl)]

namespace Finding

variable {found : List Finding}

theorem mem_tokens_iff {t : Token} : t ∈ found.filterMap token? ↔ token t ∈ found := by
  simp [List.mem_filterMap, token?_eq_some]

theorem mem_diagnostics_iff {d : Diagnostic} :
    d ∈ found.filterMap diagnostic? ↔ diagnostic d ∈ found := by
  simp [List.mem_filterMap, diagnostic?_eq_some]

theorem ascend_filterMap {α : Type} {pick : Finding → Option α} {place : α → Span}
    (hpick : ∀ f a, pick f = some a → place a = f.span)
    (h : found.Pairwise fun f g => f.span.Precedes g.span) :
    (found.filterMap pick).Pairwise fun a b => (place a).Precedes (place b) := by
  rw [List.pairwise_filterMap]
  refine h.imp fun {f g} hfg a ha b hb => ?_
  rwa [hpick f a ha, hpick g b hb]

end Finding

theorem Laid.tokens_ascend {text : List Char} {start : Nat} {found : List Finding}
    (h : Laid text start found) (line : Nat) :
    (found.filterMap Finding.token? ++
      [(⟨.eof, "", none, line, ⟨text.length, text.length⟩⟩ : Token)]).Pairwise
        fun t u => t.span.Precedes u.span := by
  have hascend : (found.filterMap Finding.token?).Pairwise fun t u => t.span.Precedes u.span := by
    refine Finding.ascend_filterMap (fun f t ht => ?_) h.ascend
    rw [Finding.token?_eq_some.1 ht]
    rfl
  rw [List.pairwise_append]
  refine ⟨hascend, List.pairwise_singleton _ _, fun t ht u hu => ?_⟩
  obtain ⟨_, hpos, hstop⟩ := h.bounds _ (Finding.mem_tokens_iff.1 ht)
  rw [List.mem_singleton.1 hu]
  exact ⟨Nat.lt_of_lt_of_le hpos hstop, hstop⟩

theorem scan_tokens_ascend (source : String) :
    (scan source).tokens.Pairwise fun t u => t.span.Precedes u.span := by
  obtain ⟨found, line, htokens, _, hlaid⟩ := (tokenises_scan source).exists_laid rfl
  exact htokens ▸ hlaid.tokens_ascend line

theorem scan_tokens_nodup (source : String) : (scan source).tokens.Nodup := by
  refine (scan_tokens_ascend source).imp fun {t u} htu heq => ?_
  exact Nat.lt_irrefl _ (heq ▸ htu.1)

/-- Scanning accounts for every character: it belongs to one token or diagnostic, or to trivia
between them. -/
theorem exists_covers_scan (source : String) :
    ∃ found, (scan source).Covers source.toList found := by
  obtain ⟨found, line, htokens, hdiagnostics, hlaid⟩ := (tokenises_scan source).exists_laid rfl
  refine ⟨found, {
    tokens_eq := ⟨line, htokens⟩
    kind_ne_eof := fun t ht => (hlaid.faithful _ ht).1
    diagnostics_eq := hdiagnostics
    nonempty := fun f hf => (hlaid.bounds f hf).2.1
    inBounds := fun f hf => (hlaid.bounds f hf).2.2
    ascend := hlaid.ascend
    tokens_ascend := htokens ▸ hlaid.tokens_ascend line
    diagnostics_ascend := ?_
    lexeme_eq := ?_
    gaps_trivia := hlaid.gaps_trivia
    interleave_eq := hlaid.interleave_eq
    unterminated_last := ?_
    unterminated_once := hdiagnostics ▸ hlaid.unterminated_once }⟩
  · rw [hdiagnostics]
    refine Finding.ascend_filterMap (fun f d hd => ?_) hlaid.ascend
    rw [Finding.diagnostic?_eq_some.1 hd]
    rfl
  · intro t ht
    rw [htokens] at ht
    rcases List.mem_append.1 ht with ht | ht
    · exact (hlaid.faithful _ (Finding.mem_tokens_iff.1 ht)).2
    · rw [List.mem_singleton.1 ht]
      simp [Span.slice, List.extract]
  · intro d hd hfault
    rw [hdiagnostics] at hd
    have hmem := Finding.mem_diagnostics_iff.1 hd
    obtain ⟨hquote, hstop⟩ := hlaid.faithful _ hmem hfault
    exact ⟨hquote, hstop, hlaid.getLast?_eq hmem hstop⟩

end Reckoner
