import Mathlib.Data.List.Induction
import Reckoner.Program

/-!
The status after a history of runs and next lines. One flag holds if any program so far has failed
while it was evaluated, the other if any since the last next line was ill-formed. Both are said of
the set of the programs, so it does not matter in which order those of a line are run, or how often.
-/
namespace Reckoner

namespace Program

def IsIllFormed (source : String) : Prop :=
  ∃ diagnostics, run source = .error (.illFormed diagnostics)

def FailsAtRuntime (source : String) : Prop :=
  ∃ error, run source = .error (.runtime error)

end Program

open Program

/-- Since the last next line, or since the start if there is none, an ill-formed program was run. -/
def LatelyIllFormed (history : List SessionStep) : Prop :=
  ∃ before source after, history = before ++ .run source :: after ∧ .nextLine ∉ after ∧
    IsIllFormed source

theorem latelyIllFormed_nil : ¬ LatelyIllFormed [] := by
  rintro ⟨before, source, after, heq, _⟩
  simp at heq

theorem latelyIllFormed_concat (history : List SessionStep) (last : SessionStep) :
    LatelyIllFormed (history ++ [last]) ↔
      last ≠ .nextLine ∧ LatelyIllFormed history ∨ ∃ source, last = .run source ∧
        IsIllFormed source := by
  constructor
  · rintro ⟨before, source, after, heq, hafter, h⟩
    -- The last step is that run itself, or it comes behind it.
    rcases List.eq_nil_or_concat after with rfl | ⟨after, last', rfl⟩
    · obtain ⟨_, hlast⟩ := List.append_inj' heq rfl
      exact .inr ⟨source, List.singleton_inj.1 hlast, h⟩
    · rw [List.concat_eq_append, ← List.cons_append, ← List.append_assoc] at heq
      obtain ⟨rfl, hlast⟩ := List.append_inj' heq rfl
      obtain rfl := List.singleton_inj.1 hlast
      simp only [List.concat_eq_append, List.mem_append, List.mem_singleton, not_or] at hafter
      exact .inl ⟨Ne.symm hafter.2, before, source, after, rfl, hafter.1, h⟩
  · rintro (⟨hne, before, source, after, rfl, hafter, h⟩ | ⟨source, rfl, h⟩)
    · exact ⟨before, source, after ++ [last], by simp, by simp [hafter, hne.symm], h⟩
    · exact ⟨history, source, [], rfl, List.not_mem_nil, h⟩

theorem latelyIllFormed_runs (sources : List String) :
    LatelyIllFormed (sources.map .run) ↔ ∃ source ∈ sources, IsIllFormed source := by
  constructor
  · rintro ⟨before, source, after, heq, _, h⟩
    have hmem : SessionStep.run source ∈ sources.map .run := by simp [heq]
    exact ⟨source, by simpa using hmem, h⟩
  · rintro ⟨source, hmem, h⟩
    obtain ⟨before, after, rfl⟩ := List.append_of_mem hmem
    exact ⟨before.map .run, source, after.map .run, by simp, by simp, h⟩

namespace Status

theorem eq_of_flags {s t : Status} (herror : s.hadError ↔ t.hadError)
    (hruntime : s.hadRuntimeError ↔ t.hadRuntimeError) : s = t := by
  obtain ⟨e, r⟩ := s
  obtain ⟨e', r'⟩ := t
  rw [Status.mk.injEq]
  exact ⟨Bool.eq_iff_iff.2 herror, Bool.eq_iff_iff.2 hruntime⟩

theorem exitCode_iff (status : Status) :
    (status.exitCode = 65 ↔ status.hadError) ∧
      (status.exitCode = 70 ↔ ¬ status.hadError ∧ status.hadRuntimeError) ∧
      (status.exitCode = 0 ↔ ¬ status.hadError ∧ ¬ status.hadRuntimeError) := by
  obtain ⟨e, r⟩ := status
  cases e <;> cases r <;> decide

section
variable (status : Status)

/-! What one step does to each flag. -/

theorem hadError_after (result : Except Error Value) :
    (status.after result).hadError ↔
      status.hadError ∨ ∃ diagnostics, result = .error (.illFormed diagnostics) := by
  rcases result with (_ | _) | _ <;> simp [after, record]

theorem hadRuntimeError_after (result : Except Error Value) :
    (status.after result).hadRuntimeError ↔
      status.hadRuntimeError ∨ ∃ error, result = .error (.runtime error) := by
  rcases result with (_ | _) | _ <;> simp [after, record]

theorem hadError_step (last : SessionStep) :
    (status.step last).hadError ↔
      last ≠ .nextLine ∧ status.hadError ∨ ∃ source, last = .run source ∧ IsIllFormed source := by
  cases last with
  | run source => simpa [step, IsIllFormed] using hadError_after status (run source)
  | nextLine => simp [step, nextLine]

theorem hadRuntimeError_step (last : SessionStep) :
    (status.step last).hadRuntimeError ↔
      status.hadRuntimeError ∨ ∃ source, last = .run source ∧ FailsAtRuntime source := by
  cases last with
  | run source => simpa [step, FailsAtRuntime] using hadRuntimeError_after status (run source)
  | nextLine => simp [step, nextLine]

/-! What a history does. -/

theorem steps_append (history more : List SessionStep) :
    status.steps (history ++ more) = (status.steps history).steps more :=
  List.foldl_append

theorem steps_concat (history : List SessionStep) (last : SessionStep) :
    status.steps (history ++ [last]) = (status.steps history).step last :=
  status.steps_append history [last]

theorem hadError_steps (history : List SessionStep) :
    (status.steps history).hadError ↔
      .nextLine ∉ history ∧ status.hadError ∨ LatelyIllFormed history := by
  -- From the end, as it is the last next line that counts.
  induction history using List.reverseRecOn with
  | nil => simp [steps, latelyIllFormed_nil]
  | append_singleton history last ih =>
    have hmem : .nextLine ∉ history ++ [last] ↔ last ≠ .nextLine ∧ .nextLine ∉ history := by
      simp [and_comm, @eq_comm _ last]
    rw [steps_concat, hadError_step, ih, latelyIllFormed_concat, hmem, and_or_left, or_assoc,
      and_assoc]

theorem hadRuntimeError_steps (history : List SessionStep) :
    (status.steps history).hadRuntimeError ↔
      status.hadRuntimeError ∨ ∃ source, .run source ∈ history ∧ FailsAtRuntime source := by
  induction history using List.reverseRecOn with
  | nil => simp [steps]
  | append_singleton history last ih =>
    have hmem (source : String) : .run source ∈ history ++ [last] ↔
        .run source ∈ history ∨ last = .run source := by
      simp [@eq_comm _ last]
    rw [steps_concat, hadRuntimeError_step, ih, or_assoc]
    simp only [hmem, or_and_right, exists_or]

theorem steps_runs_congr {sources sources' : List String}
    (h : ∀ source, source ∈ sources ↔ source ∈ sources') :
    status.steps (sources.map .run) = status.steps (sources'.map .run) := by
  apply eq_of_flags
  · rw [hadError_steps, hadError_steps, latelyIllFormed_runs, latelyIllFormed_runs]
    simp [h]
  · rw [hadRuntimeError_steps, hadRuntimeError_steps]
    simp [h]

end

/-- The status after any history. A runtime error is kept for good and an ill-formed program until
the next line, but the latter comes first in the exit code. So right behind a next line the code is
not 65, and from a runtime error on it is never 0. Programs that are run with no next line between
them may be run in any order and any number of times. -/
theorem status_of_history (history : List SessionStep) :
    let status := initial.steps history
    (status.hadRuntimeError ↔ ∃ source, .run source ∈ history ∧ FailsAtRuntime source) ∧
    (status.hadError ↔ LatelyIllFormed history) ∧
    ((status.exitCode = 65 ↔ status.hadError) ∧
      (status.exitCode = 70 ↔ ¬ status.hadError ∧ status.hadRuntimeError) ∧
      (status.exitCode = 0 ↔ ¬ status.hadError ∧ ¬ status.hadRuntimeError)) ∧
    (initial.steps (history ++ [.nextLine])).exitCode ≠ 65 ∧
    ((∃ source, .run source ∈ history ∧ FailsAtRuntime source) →
      ∀ more, (initial.steps (history ++ more)).exitCode ≠ 0) ∧
    ∀ sources sources' : List String, (∀ source, source ∈ sources ↔ source ∈ sources') →
      ∀ more, initial.steps (history ++ sources.map .run ++ more) =
        initial.steps (history ++ sources'.map .run ++ more) := by
  intro status
  refine ⟨?_, ?_, exitCode_iff status, ?_, ?_, ?_⟩
  · simp [status, hadRuntimeError_steps, initial]
  · simp [status, hadError_steps, initial]
  · rw [ne_eq, (exitCode_iff _).1, steps_concat, hadError_step]
    simp
  · rintro ⟨source, hmem, hfails⟩ more hcode
    refine ((exitCode_iff _).2.2.1 hcode).2 ?_
    rw [hadRuntimeError_steps]
    exact .inr ⟨source, List.mem_append_left more hmem, hfails⟩
  · intro sources sources' h more
    rw [steps_append, steps_append, steps_append, steps_append, steps_runs_congr _ h]

/-- The runtime error is hidden until the next line. -/
example : (initial.steps [.run "1 2", .nextLine, .run "-nil", .run ")"]).exitCode = 65 := by
  decide +kernel

end Status
end Reckoner
