import Reckoner.Source

/-!
Lines of offsets. The newlines of a text are recorded in ascending order, and the binary search
finds the number of those before an offset, also for offsets past the end of the text.
-/
namespace Reckoner

theorem mem_newlineOffsets {text : List Char} {base i : Nat} :
    i ∈ newlineOffsets base text ↔ base ≤ i ∧ text[i - base]? = some '\n' := by
  induction text generalizing base with
  | nil => simp [newlineOffsets]
  | cons c text ih =>
    have htail : i ∈ newlineOffsets (base + 1) text ↔
        base < i ∧ (c :: text)[i - base]? = some '\n' := by
      rw [ih]
      refine and_congr_right fun hlt => ?_
      have hdistance : i - base = i - (base + 1) + 1 := by omega
      rw [hdistance, List.getElem?_cons_succ]
    have hsplit : (base ≤ i ∧ (c :: text)[i - base]? = some '\n') ↔
        i = base ∧ c = '\n' ∨ base < i ∧ (c :: text)[i - base]? = some '\n' := by
      by_cases hi : i = base
      · simp [hi]
      · have hle : base ≤ i ↔ base < i := by omega
        simp [hi, hle]
    unfold newlineOffsets
    split
    next hc => rw [List.mem_cons, htail, hsplit, and_iff_left hc]
    next hc => rw [htail, hsplit, or_iff_right (fun h => hc h.2)]

theorem newlineOffsets_ascend (base : Nat) (text : List Char) :
    (newlineOffsets base text).Pairwise (· < ·) := by
  induction text generalizing base with
  | nil => exact .nil
  | cons c text ih =>
    unfold newlineOffsets
    split
    · exact .cons (fun i hi => (mem_newlineOffsets.1 hi).1) (ih _)
    · exact ih _

theorem countP_newlineOffsets (base offset : Nat) (text : List Char) :
    (newlineOffsets base text).countP (· < offset) = (text.take (offset - base)).count '\n' := by
  induction text generalizing base with
  | nil => simp [newlineOffsets]
  | cons c text ih =>
    have htail := ih (base + 1)
    unfold newlineOffsets
    cases hdistance : offset - base with
    | zero =>
      have hnext : offset - (base + 1) = 0 := by omega
      have hle : ¬ base < offset := by omega
      rw [hnext] at htail
      split <;> simpa [hle] using htail
    | succ distance =>
      have hnext : offset - (base + 1) = distance := by omega
      have hlt : base < offset := by omega
      rw [hnext] at htail
      split <;> simp [*]

theorem any_lt_iff_lt_countP {numbers : List Nat} (h : numbers.Pairwise (· < ·)) (bound i : Nat) :
    numbers[i]?.any (· < bound) ↔ i < numbers.countP (· < bound) := by
  induction h generalizing i with
  | nil => simp
  | @cons number numbers hfirst _ ih =>
    by_cases hnumber : number < bound
    · rw [List.countP_cons_of_pos (by simpa using hnumber)]
      cases i with
      | zero => simpa using hnumber
      | succ i => simpa using ih i
    · -- What follows is greater still.
      have hnone : numbers.countP (· < bound) = 0 := by
        rw [List.countP_eq_zero]
        intro later hlater
        have hlt := hfirst later hlater
        have hlater : ¬ later < bound := by omega
        simpa using hlater
      rw [List.countP_cons_of_neg (by simpa using hnumber), hnone]
      cases i with
      | zero => simpa using hnumber
      | succ i => simpa [hnone] using ih i

namespace LineIndex

/-- The search ends at the only place that has all newlines before the offset to its left. -/
theorem searchFrom_eq {index : LineIndex} {offset low size k : Nat}
    (hk : ∀ i, index.newlines[i]?.any (· < offset) ↔ i < k) (hlow : low ≤ k)
    (hsize : k ≤ low + size) : index.searchFrom offset low size = k := by
  fun_induction searchFrom index offset low size with
  | case1 low => omega
  | case2 low size hpos half hbefore ih =>
    have := (hk _).1 hbefore
    apply ih <;> omega
  | case3 low size hpos half hbefore ih =>
    have := mt (hk _).2 hbefore
    apply ih <;> omega

theorem searchFrom_eq_countP {index : LineIndex} (h : index.newlines.toList.Pairwise (· < ·))
    (offset : Nat) :
    index.searchFrom offset 0 index.newlines.size =
      index.newlines.toList.countP (· < offset) := by
  have hsize : index.newlines.toList.countP (· < offset) ≤ index.newlines.size := by
    simpa using List.countP_le_length (p := (· < offset)) (l := index.newlines.toList)
  refine searchFrom_eq (fun i => ?_) (Nat.zero_le _) (by omega)
  rw [← any_lt_iff_lt_countP h, Array.getElem?_toList]

theorem lineAt_ofText (text : List Char) (offset : Nat) :
    (ofText text).lineAt offset = lineAfter (text.take offset) := by
  rw [lineAt, searchFrom_eq_countP (newlineOffsets_ascend 0 text)]
  exact congrArg (1 + ·) (countP_newlineOffsets 0 offset text)

theorem lineAt_length (front back : List Char) :
    (ofText (front ++ back)).lineAt front.length = lineAfter front := by
  rw [lineAt_ofText, List.take_left]

end LineIndex
end Reckoner
