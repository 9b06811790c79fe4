import Mathlib.Data.List.TakeWhile
import Reckoner.Proofs.CommandLine.Modes

/-!
A prompt against scripts. Every line of the input is answered as a script that holds nothing but the
line, whatever came before it: the status is carried from line to line, and no answer depends on it.
-/
namespace Reckoner.CommandLine

def IsText (line : List UInt8) : Prop :=
  ByteArray.IsValidUTF8 ⟨line.toArray⟩

instance : DecidablePred IsText := fun line =>
  inferInstanceAs (Decidable (ByteArray.IsValidUTF8 ⟨line.toArray⟩))

/-! Lines are read as the input is split into them. -/

section
variable {line : List UInt8} (h : newline ∉ line)
include h

theorem readLine_append_newline (rest : List UInt8) :
    readLine (line ++ newline :: rest) = (line ++ [newline], rest) := by
  have hline : ∀ byte ∈ line, byte != newline := by grind
  simp [readLine, List.takeWhile_append_of_pos hline, List.dropWhile_append_of_pos hline]

theorem readLine_of_notMem : readLine line = (line, []) := by
  have hline : ∀ byte ∈ line, byte != newline := by grind
  simp [readLine, List.takeWhile_eq_self_iff.2 hline, List.dropWhile_eq_nil_iff.2 hline]

end

theorem IsLines.eq_nil {input : List UInt8} (h : IsLines input []) : input = [] := by
  cases h
  rfl

theorem IsLines.readLine {input line : List UInt8} {lines : List (List UInt8)}
    (h : IsLines input (line :: lines)) :
    (readLine input).1 = line ∧ line ≠ [] ∧ IsLines (readLine input).2 lines := by
  cases h with
  | last hne hline =>
    rw [readLine_of_notMem hline]
    exact ⟨rfl, hne, .none⟩
  | next hline hrest =>
    rw [readLine_append_newline hline]
    exact ⟨rfl, by simp, hrest⟩

theorem exists_isLines (input : List UInt8) : ∃ lines, IsLines input lines := by
  induction input with
  | nil => exact ⟨[], .none⟩
  | cons byte input ih =>
    obtain ⟨lines, h⟩ := ih
    by_cases hbyte : byte = newline
    · subst hbyte
      exact ⟨_, .next List.not_mem_nil h⟩
    · cases h with
      | none => exact ⟨_, .last (List.cons_ne_nil byte []) (by simpa using Ne.symm hbyte)⟩
      | last _ hline =>
        have hmore := List.not_mem_cons_of_ne_of_not_mem (Ne.symm hbyte) hline
        exact ⟨_, .last (List.cons_ne_nil byte _) hmore⟩
      | @next line rest lines hline hrest =>
        have hmore := List.not_mem_cons_of_ne_of_not_mem (Ne.symm hbyte) hline
        exact ⟨_, .next hmore hrest⟩

/-! One round of the prompt. -/

section
variable {rendering : Rendering} {options : Options} {status status' : Status}
  {input : List UInt8}

theorem promptFrom_of_stop {outcome : Outcome}
    (h : promptStep rendering options status (readLine input).1 = .stop outcome) :
    promptFrom rendering options status input = outcome.behind promptMark "" := by
  rw [promptFrom]
  split
  next h' =>
    rw [h] at h'
    cases h'
    rfl
  next h' =>
    rw [h] at h'
    cases h'

theorem promptFrom_of_next {stdout stderr : String}
    (h : promptStep rendering options status (readLine input).1 = .next status' stdout stderr) :
    promptFrom rendering options status input =
      (promptFrom rendering options status' (readLine input).2).behind (promptMark ++ stdout)
        stderr := by
  rw [promptFrom]
  split
  next h' =>
    rw [h] at h'
    cases h'
  next h' =>
    rw [h] at h'
    cases h'
    rfl

end

theorem promptFrom_nil (rendering : Rendering) (options : Options) (status : Status) :
    promptFrom rendering options status [] = ⟨0, "> \n", ""⟩ := by
  have hstep : promptStep rendering options status (readLine []).1 = .stop ⟨0, "\n", ""⟩ := rfl
  rw [promptFrom_of_stop hstep]
  decide

theorem Outcome.behind_behind (outcome : Outcome) (stdout stdout' stderr stderr' : String) :
    (outcome.behind stdout' stderr').behind stdout stderr =
      outcome.behind (stdout ++ stdout') (stderr ++ stderr') := by
  simp [Outcome.behind, String.append_assoc]

namespace Mode

variable (rendering : Rendering) (mode : Mode) (path : String)

/-- What scripts of one line each print, with the mark of the prompt in front of each. -/
def printed (lines : List (List UInt8)) : String :=
  String.join (lines.map fun line => "> " ++ (mode.script rendering path ⟨line.toArray⟩).stdout)

def reported (lines : List (List UInt8)) : String :=
  String.join (lines.map fun line => (mode.script rendering path ⟨line.toArray⟩).stderr)

section
variable {rendering mode path}

theorem printed_cons (line : List UInt8) (lines : List (List UInt8)) :
    mode.printed rendering path (line :: lines) =
      "> " ++ (mode.script rendering path ⟨line.toArray⟩).stdout ++
        mode.printed rendering path lines := by
  simp [printed]

theorem reported_cons (line : List UInt8) (lines : List (List UInt8)) :
    mode.reported rendering path (line :: lines) =
      (mode.script rendering path ⟨line.toArray⟩).stderr ++ mode.reported rendering path lines := by
  simp [reported]

end

variable {path}

theorem exists_promptStep (hpath : path ≠ "") (status : Status) {line : List UInt8}
    (hne : line ≠ []) (ht : IsText line) :
    ∃ status', promptStep rendering (mode.options none) status line =
      .next status' (mode.script rendering path ⟨line.toArray⟩).stdout
        (mode.script rendering path ⟨line.toArray⟩).stderr := by
  have hdecode := decode_of_isValidUTF8 ht
  rw [mode.script_of_decode rendering hpath hdecode, promptStep, hdecode,
    if_neg (by simpa using hne)]
  exact ⟨_, rfl⟩

theorem promptStep_of_not_isText {rendering : Rendering} {options : Options} {status : Status}
    {line : List UInt8} (hne : line ≠ []) (ht : ¬ IsText line) :
    promptStep rendering options status line =
      .stop ⟨1, "", "stream did not contain valid UTF-8\n"⟩ := by
  have hmessage : ReadError.notText.message ++ "\n" = "stream did not contain valid UTF-8\n" := by
    decide
  rw [promptStep, decode_of_not_isValidUTF8 ht, if_neg (by simpa using hne), ← hmessage]

theorem exists_promptFrom (hpath : path ≠ "") {before lines : List (List UInt8)}
    (ht : ∀ line ∈ before, IsText line) (status : Status) {input : List UInt8}
    (h : IsLines input (before ++ lines)) :
    ∃ status' rest, IsLines rest lines ∧
      promptFrom rendering (mode.options none) status input =
        (promptFrom rendering (mode.options none) status' rest).behind
          (mode.printed rendering path before) (mode.reported rendering path before) := by
  -- For all statuses: the one that a line leaves behind is of no consequence.
  induction before generalizing status input with
  | nil =>
    refine ⟨status, input, h, ?_⟩
    simp [Outcome.behind, printed, reported]
  | cons line before ih =>
    obtain ⟨hline, ht⟩ := List.forall_mem_cons.1 ht
    obtain ⟨hread, hne, hrest⟩ := h.readLine
    obtain ⟨status', hstep⟩ := exists_promptStep rendering mode hpath status hne hline
    obtain ⟨status'', rest, hlines, hprompt⟩ := ih ht status' hrest
    refine ⟨status'', rest, hlines, ?_⟩
    rw [← hread] at hstep
    rw [promptFrom_of_next hstep, hprompt, Outcome.behind_behind, hread, printed_cons,
      reported_cons, promptMark]

/-- A prompt answers the lines of its input as scripts that hold one line each. It ends with its
input, whatever errors there were, or fails at the first line that is not text. -/
theorem prompt_eq_scripts (rendering : Rendering) (mode : Mode) {path : String}
    (hpath : path ≠ "") (input : List UInt8) :
    (∃ lines, IsLines input lines) ∧ ∀ lines, IsLines input lines →
      ((∀ line ∈ lines, IsText line) →
        mode.prompt rendering input = ⟨0, mode.printed rendering path lines ++ "> \n",
          mode.reported rendering path lines⟩) ∧
      ∀ before line after, lines = before ++ line :: after →
        (∀ line ∈ before, IsText line) → ¬ IsText line →
        mode.prompt rendering input = ⟨1, mode.printed rendering path before ++ "> ",
          mode.reported rendering path before ++ "stream did not contain valid UTF-8\n"⟩ := by
  have hprompt : mode.prompt rendering input =
      promptFrom rendering (mode.options none) .initial input := by
    rw [Mode.prompt, respond, parse_flags]
    rfl
  refine ⟨exists_isLines input, fun lines h => ⟨fun ht => ?_, ?_⟩⟩
  · rw [← List.append_nil lines] at h
    obtain ⟨status, rest, hrest, hrun⟩ := exists_promptFrom rendering mode hpath ht .initial h
    rw [hprompt, hrun, hrest.eq_nil, promptFrom_nil]
    simp [Outcome.behind]
  · rintro before line after rfl ht hline
    obtain ⟨status, rest, hrest, hrun⟩ := exists_promptFrom rendering mode hpath ht .initial h
    obtain ⟨hread, hne, _⟩ := hrest.readLine
    have hstep := @promptStep_of_not_isText rendering (mode.options none) status _ hne hline
    rw [← hread] at hstep
    rw [hprompt, hrun, promptFrom_of_stop hstep]
    simp [Outcome.behind, promptMark]

theorem prompt_eq_scripts_of_bytes :
    "script" ≠ "" ∧
      IsLines [45, 110, 105, 108, 10, 49, 10, 255] [[45, 110, 105, 108, 10], [49, 10], [255]] ∧
      (∀ line ∈ [[45, 110, 105, 108, 10], [49, 10]], IsText line) ∧ ¬ IsText [255] ∧
      Mode.value.prompt default [45, 110, 105, 108, 10, 49, 10, 255] = ⟨1, "> > 1\n> ",
        "Operand must be a number.\n[line 1]\nstream did not contain valid UTF-8\n"⟩ := by
  have hpath : "script" ≠ "" := by decide
  have hlines : IsLines [45, 110, 105, 108, 10, 49, 10, 255]
      [[45, 110, 105, 108, 10], [49, 10], [255]] :=
    .next (show newline ∉ [45, 110, 105, 108] by decide)
      (.next (show newline ∉ [49] by decide) (.last (by decide) (by decide)))
  have htext : ∀ line ∈ [[45, 110, 105, 108, 10], [49, 10]], IsText line := by
    decide +kernel
  have hlast : ¬ IsText [255] := by
    decide +kernel
  have hanswer := ((prompt_eq_scripts default .value hpath _).2 _ hlines).2
    [[45, 110, 105, 108, 10], [49, 10]] [255] [] rfl htext hlast
  exact ⟨hpath, hlines, htext, hlast, hanswer.trans (by decide +kernel)⟩

end Mode
end Reckoner.CommandLine
