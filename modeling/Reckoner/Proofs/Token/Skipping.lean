import Reckoner.Token.Grammar

/-!
Trivia and how it is skipped. What is skipped is trivia that cannot be made longer, and a text has
only one such front part.
-/
namespace Reckoner

namespace IsTrivia

variable {final : Bool} {left right : List Char}

theorem append (hl : IsTrivia false left) (hr : IsTrivia final right) :
    IsTrivia final (left ++ right) := by
  induction hl with
  | nil => exact hr
  | blank hc _ ih => exact .blank hc ih
  | comment hbody _ ih => simpa using comment hbody ih
  | lastComment hfinal => cases hfinal

theorem of_closed (h : IsTrivia false left) (final : Bool) : IsTrivia final left := by
  have := h.append (.nil : IsTrivia final [])
  rwa [List.append_nil] at this

private theorem newline_inj {body body' after after' : List Char} (hbody : '\n' ∉ body)
    (hbody' : '\n' ∉ body') (h : body ++ '\n' :: after = body' ++ '\n' :: after') :
    after = after' := by
  induction body generalizing body' with
  | nil =>
    cases body' with
    | nil => exact (List.cons.inj h).2
    | cons c body' =>
      obtain ⟨rfl, _⟩ := List.cons.inj h
      exact absurd List.mem_cons_self hbody'
  | cons c body ih =>
    cases body' with
    | nil =>
      obtain ⟨rfl, _⟩ := List.cons.inj h
      exact absurd List.mem_cons_self hbody
    | cons c' body' =>
      exact ih (fun hm => hbody (List.mem_cons_of_mem _ hm))
        (fun hm => hbody' (List.mem_cons_of_mem _ hm)) (List.cons.inj h).2

theorem of_append (hl : IsTrivia false left) (h : IsTrivia final (left ++ right)) :
    IsTrivia final right := by
  induction hl with
  | nil => exact h
  | @blank c text hc _ ih =>
    generalize htext : c :: text ++ right = whole at h
    cases h with
    | nil => cases htext
    | blank _ h =>
      obtain ⟨_, rfl⟩ := List.cons.inj htext
      exact ih h
    | comment | lastComment =>
      obtain ⟨rfl, _⟩ := List.cons.inj htext
      exact absurd hc (by decide)
  | @comment body text hbody _ ih =>
    generalize htext : '/' :: '/' :: body ++ '\n' :: text ++ right = whole at h
    cases h with
    | nil => cases htext
    | blank hc =>
      obtain ⟨rfl, _⟩ := List.cons.inj htext
      exact absurd hc (by decide)
    | @comment body' text' hbody' h =>
      simp only [List.cons_append, List.append_assoc, List.cons.injEq, true_and] at htext
      rw [← newline_inj hbody hbody' htext] at h
      exact ih h
    | @lastComment body' _ hbody' =>
      simp only [List.cons_append, List.append_assoc, List.cons.injEq, true_and] at htext
      rw [← htext] at hbody'
      exact absurd (by simp) hbody'
  | lastComment hfinal => cases hfinal

end IsTrivia

namespace Trivia

def Stops : List Char → Prop
  | [] => True
  | c :: text => isBlank c = false ∧ startsComment c text = false

theorem isBlank_iff {c : Char} : isBlank c ↔ c ∈ [' ', '\t', '\r', '\n'] := by
  simp [isBlank, or_assoc]

theorem Stops.eq_nil {final : Bool} {more rest : List Char} (h : Stops (more ++ rest))
    (ht : IsTrivia final more) : more = [] := by
  cases ht with
  | nil => rfl
  | blank hc => simp [Stops, isBlank_iff.2 hc] at h
  | comment => simp [Stops, startsComment] at h
  | lastComment => simp [Stops, startsComment] at h

/-- What is skipped from inside a comment: the rest of it, and the trivia behind its newline. -/
def IsCommentRest (final : Bool) (text : List Char) : Prop :=
  ∃ body, '\n' ∉ body ∧
    (text = body ∧ final = true ∨ ∃ after, text = body ++ '\n' :: after ∧ IsTrivia final after)

theorem IsCommentRest.cons {final : Bool} {c : Char} {text : List Char} (hc : c ≠ '\n')
    (h : IsCommentRest final text) : IsCommentRest final (c :: text) := by
  obtain ⟨body, hbody, h⟩ := h
  refine ⟨c :: body, by simp [hbody, hc.symm], ?_⟩
  rcases h with ⟨rfl, hfinal⟩ | ⟨after, rfl, hafter⟩
  · exact .inl ⟨rfl, hfinal⟩
  · exact .inr ⟨after, rfl, hafter⟩

theorem IsCommentRest.isTrivia {final : Bool} {text : List Char}
    (h : IsCommentRest final ('/' :: text)) : IsTrivia final ('/' :: '/' :: text) := by
  obtain ⟨body, hbody, ⟨rfl, hfinal⟩ | ⟨after, htext, hafter⟩⟩ := h
  · exact .lastComment hfinal fun hm => hbody (List.mem_cons_of_mem _ hm)
  · cases body with
    | nil => cases htext
    | cons c body =>
      obtain ⟨_, rfl⟩ := List.cons.inj htext
      exact .comment (fun hm => hbody (List.mem_cons_of_mem _ hm)) hafter

theorem exists_skip (inComment : Bool) (offset : Nat) (text : List Char) :
    ∃ skipped rest, text = skipped ++ rest ∧
      skip inComment offset text = (offset + skipped.length, rest) ∧ Stops rest ∧
      (inComment = true → IsCommentRest rest.isEmpty skipped) ∧
      (inComment = false → IsTrivia rest.isEmpty skipped) := by
  fun_induction skip inComment offset text with
  | case1 inComment offset =>
    exact ⟨[], [], rfl, rfl, trivial, fun _ => ⟨[], by simp, .inl ⟨rfl, rfl⟩⟩, fun _ => .nil⟩
  | case2 offset c text ih =>
    obtain ⟨skipped, rest, rfl, hskip, hstops, hcomment, htrivia⟩ := ih
    refine ⟨c :: skipped, rest, rfl, ?_, hstops, fun _ => ?_, fun h => by cases h⟩
    · rw [hskip, List.length_cons, Nat.add_right_comm, Nat.add_assoc]
    · by_cases hc : c = '\n'
      · subst hc
        exact ⟨[], by simp, .inr ⟨skipped, rfl, htrivia (by simp)⟩⟩
      · exact (hcomment (by simpa using hc)).cons hc
  | case3 inComment offset c text hin hblank ih =>
    obtain ⟨skipped, rest, rfl, hskip, hstops, _, htrivia⟩ := ih
    refine ⟨c :: skipped, rest, rfl, ?_, hstops, fun h => absurd h hin, fun _ => ?_⟩
    · rw [hskip, List.length_cons, Nat.add_right_comm, Nat.add_assoc]
    · exact .blank (isBlank_iff.1 hblank) (htrivia rfl)
  | case4 inComment offset c text hin hblank hstart ih =>
    obtain ⟨skipped, rest, htext, hskip, hstops, hcomment, _⟩ := ih
    simp only [startsComment, Bool.and_eq_true, beq_iff_eq] at hstart
    obtain ⟨rfl, hhead⟩ := hstart
    have hrest := hcomment rfl
    cases skipped with
    | nil =>
      -- A comment does not stop in front of its second slash.
      obtain ⟨body, _, ⟨rfl, hempty⟩ | ⟨after, hnil, _⟩⟩ := hrest
      · simp [htext, List.isEmpty_iff.1 hempty] at hhead
      · simp at hnil
    | cons d skipped =>
      obtain rfl : d = '/' := by simpa [htext] using hhead
      refine ⟨'/' :: '/' :: skipped, rest, by rw [htext]; rfl, ?_, hstops, fun h => absurd h hin,
        fun _ => hrest.isTrivia⟩
      rw [hskip]
      simp only [List.length_cons]
      congr 1
      omega
  | case5 inComment offset c text hin hblank hstart =>
    refine ⟨[], c :: text, rfl, rfl, ?_, fun h => absurd h hin, fun _ => .nil⟩
    exact ⟨by simpa using hblank, by simpa using hstart⟩

end Trivia

namespace IsMaximalTrivia

variable {trivia trivia' rest rest' : List Char}

theorem of_stops (ht : IsTrivia rest.isEmpty trivia) (hs : Trivia.Stops rest) :
    IsMaximalTrivia trivia rest := by
  refine ⟨ht, ?_⟩
  rintro more rest' rfl h
  cases more with
  | nil => rfl
  | cons c more => exact hs.eq_nil (ht.of_append h)

private theorem le (h : IsMaximalTrivia trivia rest) (h' : IsMaximalTrivia trivia' rest')
    {more : List Char} (ht : trivia' = trivia ++ more) (hr : rest = more ++ rest') :
    trivia = trivia' ∧ rest = rest' := by
  obtain rfl := h.2 more rest' hr.symm (ht ▸ h'.1)
  exact ⟨by simp [ht], by simp [hr]⟩

theorem unique (h : IsMaximalTrivia trivia rest) (h' : IsMaximalTrivia trivia' rest')
    (heq : trivia ++ rest = trivia' ++ rest') : trivia = trivia' ∧ rest = rest' := by
  rcases List.append_eq_append_iff.1 heq with ⟨more, ht, hr⟩ | ⟨more, ht, hr⟩
  · exact h.le h' ht hr
  · exact (h'.le h ht hr).imp Eq.symm Eq.symm

theorem skip (h : IsMaximalTrivia trivia rest) (offset : Nat) :
    Trivia.skip false offset (trivia ++ rest) = (offset + trivia.length, rest) ∧
      Trivia.Stops rest := by
  obtain ⟨skipped, rest', htext, hskip, hstops, _, htrivia⟩ :=
    Trivia.exists_skip false offset (trivia ++ rest)
  obtain ⟨rfl, rfl⟩ := h.unique (of_stops (htrivia rfl) hstops) htext
  exact ⟨hskip, hstops⟩

theorem stops (h : IsMaximalTrivia trivia rest) : Trivia.Stops rest :=
  (h.skip 0).2

theorem isTrivia {lexeme : List Char} (h : IsMaximalTrivia trivia (lexeme ++ rest))
    (hne : lexeme ≠ []) : IsTrivia false trivia := by
  have hempty : (lexeme ++ rest).isEmpty = false := by simp [hne]
  rw [← hempty]
  exact h.1

/-- What stands behind a lexeme matters only if it makes a comment of a slash. -/
theorem change_rest {lexeme : List Char} (h : IsMaximalTrivia trivia (lexeme ++ rest))
    (hne : lexeme ≠ []) (hslash : rest'.head? = some '/' → rest.head? = some '/') :
    IsMaximalTrivia trivia (lexeme ++ rest') := by
  refine of_stops ((h.isTrivia hne).of_closed _) ?_
  have hstops := h.stops
  cases lexeme with
  | nil => exact absurd rfl hne
  | cons c more =>
    refine ⟨hstops.1, ?_⟩
    cases more with
    | cons d more => exact hstops.2
    | nil =>
      have hcomment := hstops.2
      simp only [Trivia.startsComment, Bool.and_eq_false_iff, beq_eq_false_iff_ne] at hcomment ⊢
      exact hcomment.imp_right fun hhead heq => hhead (hslash heq)

end IsMaximalTrivia

theorem exists_maximalTrivia (text : List Char) :
    ∃ trivia rest, text = trivia ++ rest ∧ IsMaximalTrivia trivia rest := by
  obtain ⟨skipped, rest, htext, _, hstops, _, htrivia⟩ := Trivia.exists_skip false 0 text
  exact ⟨skipped, rest, htext, .of_stops (htrivia rfl) hstops⟩

end Reckoner
