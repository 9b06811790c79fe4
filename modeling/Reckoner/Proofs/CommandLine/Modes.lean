import Reckoner.CommandLine.Session
import Reckoner.Proofs.Program.Stages

/-!
The modes of a script against the program itself. A script runs through the stages on its own, with
a way out behind each for the modes that want no more; what it prints and its exit code are those of
the value or the error of the program.
-/
namespace Reckoner.CommandLine

open Program

theorem decode_of_isValidUTF8 {bytes : ByteArray} (h : bytes.IsValidUTF8) :
    decode bytes = .ok (String.fromUTF8 bytes h) := by
  rw [decode, String.fromUTF8?, dif_pos h]

theorem decode_of_not_isValidUTF8 {bytes : ByteArray} (h : ¬ bytes.IsValidUTF8) :
    decode bytes = .error .notText := by
  rw [decode, String.fromUTF8?, dif_neg h]

theorem decode_toUTF8 (source : String) : decode source.toUTF8 = .ok source :=
  decode_of_isValidUTF8 source.isValidUTF8

/-! What a source text is run to, in each of the modes. -/

section
variable (name : Option String) (source : String)

theorem execute_value :
    execute (Mode.value.options name) source =
      match run source with
      | .ok value => ⟨value.text ++ "\n", none⟩
      | .error e => ⟨"", some e⟩ := by
  unfold execute run parse
  rcases scan source with ⟨tokens, _ | ⟨d, diagnostics⟩⟩
  · cases htree : ofTokens tokens with
    | error e => simp [htree, Mode.options, Bind.bind, Except.bind]
    | ok tree =>
      cases heval : Program.eval tree <;>
        simp [htree, heval, Mode.options, Bind.bind, Except.bind]
  · rfl

theorem execute_tree :
    execute (Mode.tree.options name) source =
      match parse source with
      | .ok tree => ⟨tree.bracketed ++ "\n", none⟩
      | .error e => ⟨"", some e⟩ := by
  unfold execute parse
  rcases scan source with ⟨tokens, _ | ⟨d, diagnostics⟩⟩
  · cases htree : ofTokens tokens <;> simp [htree, Mode.options]
  · rfl

theorem execute_tokens :
    execute (Mode.tokens.options name) source =
      ⟨listing (scan source).tokens,
        if (scan source).diagnostics = [] then none
        else some (.illFormed (scan source).diagnostics)⟩ := by
  unfold execute
  rcases scan source with ⟨tokens, _ | ⟨d, diagnostics⟩⟩ <;> rfl

end

/-! Reports are made one by one, and the text of an error joins them with newlines. -/

theorem join_lines {lines : List String} (h : lines ≠ []) :
    String.join (lines.map (· ++ "\n")) = "\n".intercalate lines ++ "\n" := by
  induction lines with
  | nil => exact absurd rfl h
  | cons line rest ih =>
    cases rest with
    | nil => simp
    | cons next rest =>
      rw [List.map_cons, String.join_cons, ih (List.cons_ne_nil next rest),
        String.intercalate_cons_cons]
      simp only [String.append_assoc]

theorem report_of_run {rendering : Rendering} {mode : Mode} {name : Option String}
    {source : String} {e : Error} (h : run source = .error e) :
    report rendering (mode.options name) source e = e.text ++ "\n" := by
  cases e with
  | runtime error => rfl
  | illFormed diagnostics =>
    have hne : diagnostics.map Diagnostic.text ≠ [] := by
      simpa using ne_nil_of_run h
    rw [Error.text, ← join_lines hne, List.map_map]
    rfl

namespace Mode

section
variable (rendering : Rendering)

theorem script_of_decode (mode : Mode) {path source : String} {contents : ByteArray}
    (hpath : path ≠ "") (h : decode contents = .ok source) :
    mode.script rendering path contents =
      runScript rendering (mode.options (some path)) source := by
  rw [script, respond, parse_flags_append mode hpath]
  change CommandLine.script rendering _ path (.ok contents) = _
  rw [CommandLine.script, Except.bind, h]

variable {path source : String} (hpath : path ≠ "")
include hpath

theorem script_toUTF8 (mode : Mode) :
    mode.script rendering path source.toUTF8 =
      runScript rendering (mode.options (some path)) source :=
  mode.script_of_decode rendering hpath (decode_toUTF8 source)

theorem script_value_of_ok {value : Value} (h : run source = .ok value) :
    Mode.value.script rendering path source.toUTF8 = ⟨0, value.text ++ "\n", ""⟩ := by
  rw [script_toUTF8 rendering hpath, runScript, execute_value, h]
  rfl

theorem script_value_of_error {e : Error} (h : run source = .error e) :
    Mode.value.script rendering path source.toUTF8 =
      ⟨(Status.initial.record e).exitCode, "", e.text ++ "\n"⟩ := by
  rw [script_toUTF8 rendering hpath, runScript, execute_value, h, ← report_of_run h]
  rfl

theorem script_tree_of_ok {tree : Expr} (h : parse source = .ok tree) :
    Mode.tree.script rendering path source.toUTF8 = ⟨0, tree.bracketed ++ "\n", ""⟩ := by
  rw [script_toUTF8 rendering hpath, runScript, execute_tree, h]
  rfl

theorem script_tree_of_error {e : Error} (h : parse source = .error e) :
    Mode.tree.script rendering path source.toUTF8 =
      Mode.value.script rendering path source.toUTF8 := by
  have hrun := run_of_parse_error h
  rw [script_toUTF8 rendering hpath, script_toUTF8 rendering hpath, runScript, runScript,
    execute_tree, execute_value, h, hrun]
  rfl

theorem script_tokens_of_nil (h : (scan source).diagnostics = []) :
    Mode.tokens.script rendering path source.toUTF8 = ⟨0, listing (scan source).tokens, ""⟩ := by
  rw [script_toUTF8 rendering hpath, runScript, execute_tokens, if_pos h]
  rfl

theorem script_tokens_of_ne_nil (h : (scan source).diagnostics ≠ []) :
    Mode.tokens.script rendering path source.toUTF8 =
      ⟨65, listing (scan source).tokens,
        (Error.illFormed (scan source).diagnostics).text ++ "\n"⟩ := by
  have hrun := run_of_parse_error (parse_of_diagnostics h)
  rw [script_toUTF8 rendering hpath, runScript, execute_tokens, if_neg h, ← report_of_run hrun]
  rfl

theorem code_script_value_eq_iff :
    (Mode.value.script rendering path source.toUTF8).code = 65 ↔ ∃ e, parse source = .error e := by
  cases hparse : parse source with
  | error e =>
    obtain ⟨diagnostics, rfl⟩ := illFormed_of_parse hparse
    rw [script_value_of_error rendering hpath (run_of_parse_error hparse)]
    exact ⟨fun _ => ⟨_, rfl⟩, fun _ => rfl⟩
  | ok tree =>
    have hrun := run_of_parse hparse
    cases heval : tree.eval with
    | ok value =>
      rw [heval] at hrun
      rw [script_value_of_ok rendering hpath hrun]
      simp
    | error error =>
      rw [heval] at hrun
      rw [script_value_of_error rendering hpath hrun]
      simp [Status.record, Status.initial, Status.exitCode]

theorem script_tree_of_code (h : (Mode.value.script rendering path source.toUTF8).code = 65) :
    Mode.tree.script rendering path source.toUTF8 =
      Mode.value.script rendering path source.toUTF8 := by
  obtain ⟨e, hparse⟩ := (code_script_value_eq_iff rendering hpath).1 h
  exact script_tree_of_error rendering hpath hparse

theorem exists_script_tree (h : (Mode.value.script rendering path source.toUTF8).code ≠ 65) :
    ∃ tree, parse source = .ok tree ∧
      Mode.tree.script rendering path source.toUTF8 = ⟨0, tree.bracketed ++ "\n", ""⟩ := by
  cases hparse : parse source with
  | error e => exact absurd ((code_script_value_eq_iff rendering hpath).2 ⟨e, hparse⟩) h
  | ok tree => exact ⟨tree, rfl, script_tree_of_ok rendering hpath hparse⟩

theorem code_script_tree :
    (Mode.tree.script rendering path source.toUTF8).code =
      if (Mode.value.script rendering path source.toUTF8).code = 65 then 65 else 0 := by
  split
  next h => rw [script_tree_of_code rendering hpath h, h]
  next h =>
    obtain ⟨tree, _, htree⟩ := exists_script_tree rendering hpath h
    rw [htree]

theorem code_script_tokens :
    (Mode.tokens.script rendering path source.toUTF8).code =
      if (scan source).diagnostics = [] then 0 else 65 := by
  split
  next h => rw [script_tokens_of_nil rendering hpath h]
  next h => rw [script_tokens_of_ne_nil rendering hpath h]

theorem code_script_of_diagnostics (h : (scan source).diagnostics ≠ []) (mode : Mode) :
    (mode.script rendering path source.toUTF8).code = 65 ∧
      (mode.script rendering path source.toUTF8).stderr =
        (Error.illFormed (scan source).diagnostics).text ++ "\n" := by
  have hparse := parse_of_diagnostics h
  have hvalue := script_value_of_error rendering hpath (run_of_parse_error hparse)
  cases mode with
  | value =>
    rw [hvalue]
    exact ⟨rfl, rfl⟩
  | tree =>
    rw [script_tree_of_error rendering hpath hparse, hvalue]
    exact ⟨rfl, rfl⟩
  | tokens =>
    rw [script_tokens_of_ne_nil rendering hpath h]
    exact ⟨rfl, rfl⟩

end

/-- One script in three modes. The plain answer is the value of the program, or its error and an
exit code for the kind of it. The tree is printed exactly if the program is well-formed, and else
the answer is the plain one; the tokens are printed in any case, and no fault is reported with them
but those of the scan. -/
theorem script_modes (rendering : Rendering) {path : String} (hpath : path ≠ "")
    (source : String) :
    let answer (mode : Mode) := mode.script rendering path source.toUTF8
    ((∃ v, run source = .ok v ∧ answer .value = ⟨0, v.text ++ "\n", ""⟩) ∨
      (∃ diagnostics, run source = .error (.illFormed diagnostics) ∧
        answer .value = ⟨65, "", (Error.illFormed diagnostics).text ++ "\n"⟩) ∨
      ∃ error, run source = .error (.runtime error) ∧
        answer .value = ⟨70, "", (Error.runtime error).text ++ "\n"⟩) ∧
    ((answer .value).code = 65 → answer .tree = answer .value) ∧
    ((answer .value).code ≠ 65 → ∃ e, parse source = .ok e ∧
      answer .tree = ⟨0, e.bracketed ++ "\n", ""⟩) ∧
    (answer .tokens).stdout = String.join ((scan source).tokens.map fun t => t.text ++ "\n") ∧
    ((scan source).diagnostics ≠ [] →
      (answer .tokens).code = 65 ∧ (answer .tokens).stderr = (answer .value).stderr) ∧
    ((scan source).diagnostics = [] →
      (answer .tokens).code = 0 ∧ (answer .tokens).stderr = "") ∧
    ((answer .tokens).code = 65 → (answer .tree).code = 65) ∧
    (answer .tree).code ≠ 70 ∧ (answer .tokens).code ≠ 70 := by
  intro answer
  refine ⟨?_, script_tree_of_code rendering hpath, exists_script_tree rendering hpath, ?_,
    fun h => ?_, fun h => ?_, fun h => ?_, ?_, ?_⟩
  · cases hrun : run source with
    | ok value => exact .inl ⟨value, rfl, script_value_of_ok rendering hpath hrun⟩
    | error e =>
      have herror := script_value_of_error rendering hpath hrun
      cases e with
      | illFormed diagnostics => exact .inr (.inl ⟨diagnostics, rfl, herror⟩)
      | runtime error => exact .inr (.inr ⟨error, rfl, herror⟩)
  · by_cases h : (scan source).diagnostics = []
    · exact congrArg Outcome.stdout (script_tokens_of_nil rendering hpath h)
    · exact congrArg Outcome.stdout (script_tokens_of_ne_nil rendering hpath h)
  · obtain ⟨hcode, hstderr⟩ := code_script_of_diagnostics rendering hpath h .tokens
    exact ⟨hcode, hstderr.trans (code_script_of_diagnostics rendering hpath h .value).2.symm⟩
  · have htokens := script_tokens_of_nil rendering hpath h
    exact ⟨congrArg Outcome.code htokens, congrArg Outcome.stderr htokens⟩
  · have hcode := (code_script_tokens rendering hpath).symm.trans h
    have hne : (scan source).diagnostics ≠ [] := by simpa using hcode
    exact (code_script_of_diagnostics rendering hpath hne .tree).1
  · simp only [answer, code_script_tree rendering hpath]
    split <;> decide
  · simp only [answer, code_script_tokens rendering hpath]
    split <;> decide

theorem script_modes_of_sign :
    "-a" ≠ "" ∧
      run "- nil" = .error (.runtime ⟨.operandNotNumber, ⟨.minus, "-", none, 1, ⟨0, 1⟩⟩⟩) ∧
      Mode.value.script default "-a" "- nil".toUTF8 =
        ⟨70, "", "Operand must be a number.\n[line 1]\n"⟩ ∧
      Mode.tree.script default "-a" "- nil".toUTF8 = ⟨0, "(- nil)\n", ""⟩ ∧
      (Mode.tokens.script default "-a" "- nil".toUTF8).stdout =
        "MINUS - null\nNIL nil null\nEOF  null\n" := by
  have hpath : "-a" ≠ "" := by decide
  have hrun : run "- nil" =
      .error (.runtime ⟨.operandNotNumber, ⟨.minus, "-", none, 1, ⟨0, 1⟩⟩⟩) := by
    decide +kernel
  have hparse : parse "- nil" =
      .ok (.unary ⟨.minus, "-", none, 1, ⟨0, 1⟩⟩ (.literal .nil)) := by
    decide +kernel
  obtain ⟨hvalue, _, htree, htokens, _⟩ := script_modes default hpath "- nil"
  have hplain : Mode.value.script default "-a" "- nil".toUTF8 =
      ⟨70, "", "Operand must be a number.\n[line 1]\n"⟩ := by
    rcases hvalue with ⟨v, hv, _⟩ | ⟨diagnostics, hd, _⟩ | ⟨error, he, hanswer⟩
    · cases hrun.symm.trans hv
    · cases hrun.symm.trans hd
    · cases hrun.symm.trans he
      exact hanswer.trans (by decide +kernel)
  have hcode : (Mode.value.script default "-a" "- nil".toUTF8).code ≠ 65 := by
    rw [hplain]
    decide
  obtain ⟨tree, htree, hanswer⟩ := htree hcode
  cases hparse.symm.trans htree
  exact ⟨hpath, hrun, hplain, hanswer.trans (by decide +kernel),
    htokens.trans (by decide +kernel)⟩

end Mode
end Reckoner.CommandLine
