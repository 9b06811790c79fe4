import Mathlib.Data.List.TakeWhile
import Reckoner.Proofs.Token.Cutting
import Reckoner.Proofs.Token.Skipping

/-!
The longest match. The class of a lexeme is decided by its first character, and within its class it
is read as far as any token of the grammar could go; so what the grammar takes off the front of a
text and what is read there are the same.
-/
namespace Reckoner

namespace Kind

theorem symbol_of_spelling? {kind : Kind} {text : List Char}
    (hs : kind.spelling? = some (String.ofList text)) (hk : ∀ word, kind ≠ .keyword word) :
    (∃ c, text = [c] ∧ ofChar? c = some kind) ∨
      ∃ c, text = [c, '='] ∧ ofPair? c '=' = some kind := by
  have htext : kind.spelling?.map String.toList = some text := by simp [hs]
  cases kind with
  | keyword word => exact absurd rfl (hk word)
  | identifier | string | number | eof => cases htext
  | bangEqual | equalEqual | greaterEqual | lessEqual =>
    exact .inr ⟨_, (Option.some.inj htext).symm, rfl⟩
  | _ => exact .inl ⟨_, (Option.some.inj htext).symm, rfl⟩

theorem exists_ofChar?_of_ofPair? {c d : Char} {kind : Kind} (h : ofPair? c d = some kind) :
    ∃ shorter, ofChar? c = some shorter := by
  unfold ofPair? at h
  split at h
  · exact ⟨_, rfl⟩
  · exact ⟨_, rfl⟩
  · exact ⟨_, rfl⟩
  · exact ⟨_, rfl⟩
  · cases h

end Kind

namespace Lexeme

theorem length_le_takeWhile {p : Char → Bool} {run : List Char} (h : ∀ c ∈ run, p c)
    (rest : List Char) : run.length ≤ ((run ++ rest).takeWhile p).length := by
  rw [List.takeWhile_append_of_pos h, List.length_append]
  omega

theorem first_of_isDigit {c : Char} (h : c.isDigit) (text : List Char) :
    first c text = number c text :=
  if_pos h

theorem first_of_startsWord {c : Char} (h : startsWord c) (text : List Char) :
    first c text = word c text := by
  rw [first, if_neg (not_isDigit_of_startsWord h), if_pos h]

theorem first_of_ofChar? {c : Char} {kind : Kind} (h : Kind.ofChar? c = some kind)
    (text : List Char) : first c text = symbol c text := by
  unfold Kind.ofChar? at h
  split at h <;> first | rfl | cases h

theorem first_unterminated {body : List Char} (h : '"' ∉ body) :
    first '"' body = ⟨.fault .unterminatedString, body.length⟩ := by
  have hbody : body.takeWhile (· != '"') = body := by
    rw [List.takeWhile_eq_self_iff]
    intro c hc
    simp only [bne_iff_ne]
    rintro rfl
    exact h hc
  unfold first string
  rw [if_neg (by decide), if_neg (by decide), if_pos (by decide), hbody]
  simp

theorem first_fault {c : Char} {text : List Char} {fault : Fault} (hc : c ≠ '"')
    (h : (first c text).reading = .fault fault) :
    first c text = ⟨.fault .unexpectedCharacter, 0⟩ := by
  unfold first at h ⊢
  split at h
  · cases h
  next hdigit =>
    rw [if_neg hdigit]
    split at h
    · cases h
    next hword =>
      rw [if_neg hword]
      split at h
      next hquote => exact absurd (beq_iff_eq.1 hquote) hc
      next hquote =>
        rw [if_neg hquote]
        unfold symbol at h ⊢
        split at h
        · cases h
        · split at h
          · cases h
          · rfl

theorem more_le_length (c : Char) (text : List Char) : (first c text).more ≤ text.length := by
  have htake (p : Char → Bool) := (List.takeWhile_sublist p (l := text)).length_le
  unfold first
  split
  · have hsplit := congrArg List.length (@List.takeWhile_append_dropWhile _ Char.isDigit text)
    rw [List.length_append] at hsplit
    simp only [number]
    rcases fraction_cases (text.dropWhile Char.isDigit) with hf | ⟨after, hafter, hf⟩
    · simp only [hf, List.isEmpty_nil, if_true]
      omega
    · have hfraction := (List.takeWhile_sublist Char.isDigit (l := after)).length_le
      rw [hafter, List.length_cons] at hsplit
      rw [hf]
      split <;> omega
  · split
    · exact htake continuesWord
    · split
      · unfold string
        have := htake (· != '"')
        dsimp only
        split <;> dsimp only <;> omega
      · unfold symbol
        split
        next hpair =>
          cases text with
          | nil => cases hpair
          | cons => simp
        next => split <;> exact Nat.zero_le _

end Lexeme

namespace Lexes

variable {text : List Char} {kind kind' : Kind} {literal literal' : Option Value}

theorem ne_nil (h : Lexes text kind literal) : text ≠ [] := by
  cases h with
  | symbol hs hn =>
    rcases Kind.symbol_of_spelling? hs (ne_keyword hs hn) with ⟨c, rfl, _⟩ | ⟨c, rfl, _⟩
    · exact List.cons_ne_nil _ _
    · exact List.cons_ne_nil _ _
  | whole hd => exact hd.1
  | decimal => simp
  | string => exact List.cons_ne_nil _ _
  | keyword hmem => exact (IsWord.of_reserved hmem).ne_nil
  | identifier hw => exact hw.ne_nil

theorem unique (h : Lexes text kind literal) (h' : Lexes text kind' literal') :
    kind = kind' ∧ literal = literal' := by
  have hend : ∀ d ∈ ([] : List Char).head?, Lexeme.separates d := by simp
  have hcut := (h.cutsInto hend).map_face 0
  have hcut' := (h'.cutsInto hend).map_face 0
  rw [hcut] at hcut'
  simpa using hcut'

theorem blank_notMem (h : Lexes text kind literal) (hquote : text.head? ≠ some '"') {c : Char}
    (hc : Trivia.isBlank c) : c ∉ text := by
  have hclass : ¬ c.isDigit ∧ ¬ Lexeme.startsWord c ∧ ¬ Lexeme.continuesWord c ∧
      Kind.ofChar? c = none ∧ c ≠ '=' ∧ c ≠ '.' := by
    have hc := Trivia.isBlank_iff.1 hc
    simp only [List.mem_cons, List.not_mem_nil, or_false] at hc
    rcases hc with rfl | rfl | rfl | rfl <;> decide
  obtain ⟨hdigit, hstarts, hcontinues, hnone, hequal, hdot⟩ := hclass
  have hdigits {digits : List Char} (hd : IsDigits digits) : c ∉ digits := fun hm =>
    hdigit (hd.2 _ hm)
  have hword {letters : List Char} (hw : IsWord letters) : c ∉ letters := by
    obtain ⟨first, letters, rfl, hfirst, hletters⟩ := isWord_iff.1 hw
    rintro (_ | ⟨_, hm⟩)
    · exact hstarts hfirst
    · exact hcontinues (hletters _ hm)
  cases h with
  | symbol hs hn =>
    rcases Kind.symbol_of_spelling? hs (ne_keyword hs hn) with ⟨d, rfl, hd⟩ | ⟨d, rfl, hd⟩
    · simp only [List.mem_singleton]
      rintro rfl
      cases hnone.symm.trans hd
    · simp only [List.mem_cons, List.not_mem_nil, or_false]
      rintro (rfl | heq)
      · obtain ⟨shorter, hshorter⟩ := Kind.exists_ofChar?_of_ofPair? hd
        cases hnone.symm.trans hshorter
      · exact hequal heq
  | whole hd => exact hdigits hd
  | decimal hd hf => simp [hdigits hd, hdigits hf, hdot]
  | string => exact absurd rfl hquote
  | keyword hmem => exact hword (.of_reserved hmem)
  | identifier hw => exact hword hw

theorem newline_notMem (h : Lexes text .number literal) : '\n' ∉ text := by
  refine h.blank_notMem (fun hquote => ?_) rfl
  cases h.isDigit_of_head? hquote

private theorem word_le {c : Char} {more rest : List Char} (h : IsWord (c :: more)) :
    ∃ kind literal, (Lexeme.first c (more ++ rest)).reading = .token kind literal ∧
      more.length ≤ (Lexeme.first c (more ++ rest)).more := by
  obtain ⟨_, _, heq, hc, hletters⟩ := isWord_iff.1 h
  obtain ⟨rfl, rfl⟩ := List.cons.inj heq
  rw [Lexeme.first_of_startsWord hc]
  exact ⟨_, _, rfl, Lexeme.length_le_takeWhile hletters rest⟩

private theorem symbol_le {c : Char} {more rest : List Char}
    (hs : kind.spelling? = some (String.ofList (c :: more))) (hn : ¬ IsWord (c :: more)) :
    ∃ kind literal, (Lexeme.first c (more ++ rest)).reading = .token kind literal ∧
      more.length ≤ (Lexeme.first c (more ++ rest)).more := by
  rcases Kind.symbol_of_spelling? hs (ne_keyword hs hn) with ⟨d, htext, hd⟩ | ⟨d, htext, hd⟩
  · obtain ⟨rfl, rfl⟩ := List.cons.inj htext
    rw [Lexeme.first_of_ofChar? hd, Lexeme.symbol]
    split
    · exact ⟨_, _, rfl, Nat.zero_le _⟩
    · rw [hd]
      exact ⟨_, _, rfl, Nat.zero_le _⟩
  · obtain ⟨rfl, rfl⟩ := List.cons.inj htext
    obtain ⟨shorter, hshorter⟩ := Kind.exists_ofChar?_of_ofPair? hd
    have hpair : (['='] ++ rest).head?.bind (Kind.ofPair? c) = some kind := hd
    rw [Lexeme.first_of_ofChar? hshorter, Lexeme.symbol, hpair]
    exact ⟨_, _, rfl, Nat.le_refl _⟩

theorem length_le_first {c : Char} {more : List Char} (h : Lexes (c :: more) kind literal)
    (hc : c ≠ '"') (rest : List Char) :
    ∃ kind' literal', (Lexeme.first c (more ++ rest)).reading = .token kind' literal' ∧
      more.length ≤ (Lexeme.first c (more ++ rest)).more := by
  generalize htext : c :: more = text at h
  cases h with
  | symbol hs hn =>
    subst htext
    exact symbol_le hs hn
  | whole hd =>
    subst htext
    rw [Lexeme.first_of_isDigit (hd.2 c List.mem_cons_self)]
    refine ⟨_, _, rfl, Nat.le_trans ?_ (Nat.le_add_right _ _)⟩
    exact Lexeme.length_le_takeWhile (fun d hd' => hd.2 d (List.mem_cons_of_mem _ hd')) rest
  | @decimal digits fraction hd hf =>
    cases digits with
    | nil => exact absurd rfl hd.1
    | cons d digits =>
      rw [List.cons_append] at htext
      obtain ⟨rfl, rfl⟩ := List.cons.inj htext
      have hdigits : ∀ d ∈ digits, d.isDigit := fun d hm => hd.2 d (List.mem_cons_of_mem _ hm)
      rw [Lexeme.first_of_isDigit (hd.2 c List.mem_cons_self)]
      refine ⟨_, _, rfl, ?_⟩
      have hlength := Lexeme.length_le_takeWhile hf.2 rest
      have hpos := List.length_pos_iff.2 hf.1
      rw [Lexeme.number, List.append_assoc, List.cons_append,
        takeWhile_append_of_head hdigits (by simp), dropWhile_append_of_head hdigits (by simp)]
      simp only [Lexeme.fraction, List.isEmpty_iff_length_eq_zero, List.length_append,
        List.length_cons]
      split <;> omega
  | string => exact absurd (List.cons.inj htext).1 hc
  | keyword hmem =>
    apply word_le
    rw [htext]
    exact .of_reserved hmem
  | identifier hw =>
    subst htext
    exact word_le hw

theorem length_le_of_prefix {c : Char} {rest : List Char} (h : Lexes text kind literal)
    (hc : c ≠ '"') (hp : text <+: c :: rest) :
    ∃ kind' literal', (Lexeme.first c rest).reading = .token kind' literal' ∧
      text.length ≤ (Lexeme.first c rest).more + 1 := by
  cases text with
  | nil => exact absurd rfl h.ne_nil
  | cons d more =>
    obtain ⟨rfl, after, rfl⟩ := List.cons_prefix_cons.1 hp
    obtain ⟨kind', literal', hr, hle⟩ := h.length_le_first hc after
    exact ⟨kind', literal', hr, Nat.succ_le_succ hle⟩

end Lexes

namespace Lexeme

theorem prefix_first (c : Char) (text : List Char) :
    c :: text.take (first c text).more <+: c :: text :=
  (List.prefix_cons_inj c).2 (List.take_prefix _ _)

/-- No longer prefix of a text is a token than the one that is read. -/
theorem isLongest_first {c : Char} (hc : c ≠ '"') (text : List Char) :
    IsLongest (c :: text.take (first c text).more) (c :: text) := by
  refine ⟨prefix_first c text, fun longer kind literal hp h => ?_⟩
  obtain ⟨_, _, _, hle⟩ := h.length_le_of_prefix hc hp
  have hlength := hp.length_le
  rw [List.length_cons, List.length_take]
  rw [List.length_cons] at hlength
  omega

theorem takes_first (c : Char) (text : List Char) :
    Takes (c :: text.take (first c text).more) (first c text).reading
      (text.drop (first c text).more) := by
  by_cases hc : c = '"'
  · subst hc
    by_cases hquote : '"' ∈ text
    · obtain ⟨body, rest, rfl, hbody⟩ := List.eq_append_cons_of_mem hquote
      have htext : body ++ '"' :: rest = body ++ ['"'] ++ rest := by simp
      have hlength : body.length + 1 = (body ++ ['"']).length := by simp
      rw [first_string hbody]
      dsimp only
      rw [htext, hlength, List.take_left, List.drop_left]
      exact .string hbody
    · rw [first_unterminated hquote]
      dsimp only
      rw [List.take_length, List.drop_length]
      exact .unterminated hquote
  · cases hr : (first c text).reading with
    | token kind literal =>
      refine .token (by simpa using hc) (lexes_first hr) ?_
      rw [List.cons_append, List.take_append_drop]
      exact isLongest_first hc text
    | fault fault =>
      have hfirst := first_fault hc hr
      obtain rfl : fault = .unexpectedCharacter := by simpa [hfirst] using hr.symm
      rw [hfirst]
      -- Where some token starts, one is read, and not a fault.
      refine .unexpected hc fun lexeme kind literal hp h => ?_
      rw [List.drop_zero] at hp
      obtain ⟨_, _, htoken, _⟩ := h.length_le_of_prefix hc hp
      rw [hr] at htoken
      cases htoken

end Lexeme

namespace Takes

variable {lexeme rest : List Char} {reading : Reading}

theorem first (h : Takes lexeme reading rest) :
    ∃ c more, lexeme = c :: more ∧
      Lexeme.first c (more ++ rest) = ⟨reading, more.length⟩ := by
  cases h with
  | @string body _ hbody =>
    refine ⟨'"', body ++ ['"'], rfl, ?_⟩
    have := @Lexeme.first_string body rest hbody
    simpa using this
  | @unterminated body hbody =>
    refine ⟨'"', body, rfl, ?_⟩
    rw [List.append_nil]
    exact Lexeme.first_unterminated hbody
  | @token _ _ kind literal hquote hl hlongest =>
    cases lexeme with
    | nil => exact absurd rfl hl.ne_nil
    | cons c more =>
      refine ⟨c, more, rfl, ?_⟩
      obtain ⟨kind', literal', hr, hle⟩ := hl.length_le_first (by simpa using hquote) rest
      have hread := Lexeme.lexes_first hr
      have hbound := Lexeme.more_le_length c (more ++ rest)
      have hlength := hlongest.2 _ _ _ (Lexeme.prefix_first c (more ++ rest)) hread
      rw [List.length_cons, List.length_take, List.length_cons] at hlength
      -- Each of the two is at least as long as the other, so they are the same text.
      have hmore : (Lexeme.first c (more ++ rest)).more = more.length := by omega
      rw [hmore, List.take_left] at hread
      obtain ⟨rfl, rfl⟩ := hl.unique hread
      rw [← hr, ← hmore]
  | @unexpected c _ hc hnone =>
    refine ⟨c, [], rfl, ?_⟩
    cases hr : (Lexeme.first c rest).reading with
    | token kind literal =>
      exact absurd (Lexeme.lexes_first hr) (hnone _ _ _ (Lexeme.prefix_first c rest))
    | fault fault => exact Lexeme.first_fault hc hr

theorem lexes {kind : Kind} {literal : Option Value}
    (h : Takes lexeme (.token kind literal) rest) : Lexes lexeme kind literal := by
  cases h with
  | string hbody => exact .string hbody
  | token _ hl _ => exact hl

theorem of_unterminated (h : Takes lexeme (.fault .unterminatedString) rest) :
    lexeme.head? = some '"' ∧ rest = [] := by
  cases h
  exact ⟨rfl, rfl⟩

theorem ne_nil (h : Takes lexeme reading rest) : lexeme ≠ [] := by
  obtain ⟨c, more, rfl, _⟩ := h.first
  exact List.cons_ne_nil _ _

end Takes

namespace CutsOff

variable {lexeme rest : List Char} {reading : Reading}

theorem takes (h : CutsOff lexeme reading rest) : Takes lexeme reading rest := by
  obtain ⟨c, more, rfl, hf, _⟩ := h
  have htakes := Lexeme.takes_first c (more ++ rest)
  rwa [hf, List.take_left, List.drop_left] at htakes

theorem stops (h : CutsOff lexeme reading rest) : Trivia.Stops (lexeme ++ rest) := by
  obtain ⟨c, more, rfl, _, hb, hc⟩ := h
  exact ⟨hb, hc⟩

end CutsOff

theorem exists_takes (text : List Char) :
    IsTrivia true text ∨
      ∃ trivia lexeme reading rest, text = trivia ++ (lexeme ++ rest) ∧
        IsMaximalTrivia trivia (lexeme ++ rest) ∧ Takes lexeme reading rest := by
  obtain ⟨trivia, rest, rfl, htrivia⟩ := exists_maximalTrivia text
  cases rest with
  | nil =>
    rw [List.append_nil]
    exact .inl htrivia.1
  | cons c rest =>
    have htakes := Lexeme.takes_first c rest
    have hsplit := List.take_append_drop (Lexeme.first c rest).more rest
    refine .inr ⟨trivia, _, _, _, ?_, ?_, htakes⟩
    · rw [List.cons_append, hsplit]
    · rwa [List.cons_append, hsplit]

end Reckoner
