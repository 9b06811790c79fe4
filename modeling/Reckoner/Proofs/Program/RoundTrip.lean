import Reckoner.Proofs.Expr.Unplaced
import Reckoner.Proofs.Expr.Written
import Reckoner.Proofs.Program.Stages

/-!
Programs and the source texts of their trees. A tree is read back from its text exactly if it is
canonical, and the tree of a program exactly if no number of it is an infinity.
-/
namespace Reckoner
namespace Program

theorem wellFormed_of_parse_scan {source : String} {tree : Expr}
    (h : Expr.parse (scan source).tokens = .ok tree) :
    tree.WellFormed ∧ ∀ v ∈ tree.literals, v.Scannable := by
  have hd := parse_scan_eq_ok_iff.1 h
  obtain ⟨hw, _, hs⟩ := hd.wellFormed fun t ht => lexical_of_mem_scanned ht
  exact ⟨hw, hs⟩

theorem wellFormed_of_parse {source : String} {tree : Expr} (h : parse source = .ok tree) :
    tree.WellFormed ∧ ∀ v ∈ tree.literals, v.Scannable :=
  wellFormed_of_parse_scan (parse_eq_ok_iff.1 h).2

theorem parse_ofList_digits {digits : List Char} (h : IsDigits digits) :
    parse (String.ofList digits) =
      .ok (.literal (.number (Number.ofDecimal (.ofDigits digits [])))) := by
  have hcut := @Lexes.cutsInto _ [] _ _ (.whole h) (by simp)
  have hscan : CutsInto (String.ofList digits).toList ([Token.bare .number (String.ofList digits)
      (some (.number (Number.ofDecimal (.ofDigits digits []))))].map Token.face) [] := by
    simpa [Token.face, Token.bare] using hcut
  obtain ⟨hdiagnostics, hfaces⟩ := scan_of_cutsInto hscan
  obtain ⟨t, ht, hface⟩ := List.map_eq_singleton_iff.1 hfaces
  obtain ⟨_, hk, hl⟩ := Token.face_eq_iff.1 hface
  have hd := Derives.literal (.inl hk) hl
  rw [← ht] at hd
  exact parse_eq_ok_iff.2 ⟨hdiagnostics, parse_scan_eq_ok_iff.2 (hd.toChain (Nat.zero_le _))⟩

end Program

namespace Expr

section
variable {e : Expr} (hw : e.WellFormed)
include hw

theorem scan_source (hs : ∀ v ∈ e.literals, v.Scannable) :
    (scan e.source).diagnostics = [] ∧
      (scanned e.source).map Token.face = e.written.map Token.face :=
  scan_of_cutsInto (cutsInto_written hw hs (by simp [Ends]))

theorem parse_source (hs : ∀ v ∈ e.literals, v.Writable) :
    ∃ again, Program.parse e.source = .ok again ∧ again.unplaced = e.unplaced := by
  obtain ⟨hdiagnostics, hfaces⟩ := scan_source hw fun v hv => (Value.writable_iff.1 (hs v hv)).1
  obtain ⟨again, hd, he⟩ := (derives_written hw hs).of_faces hfaces
  exact ⟨again, Program.parse_eq_ok_iff.2 ⟨hdiagnostics, Program.parse_scan_eq_ok_iff.2 hd⟩, he⟩

theorem writable_of_parse_source (hs : ∀ v ∈ e.literals, v.Scannable) {again : Expr}
    (h : Program.parse e.source = .ok again) : ∀ v ∈ e.literals, v.Writable := by
  have hd := Program.parse_scan_eq_ok_iff.1 (Program.parse_eq_ok_iff.1 h).2
  obtain ⟨_, hd, _⟩ := hd.of_faces (scan_source hw hs).2.symm
  exact writable_of_derives hd hs

end

/-- A tree is read back from its source text, up to the places of its operators, exactly if it is
canonical. -/
theorem parse_source_iff_canonical (tree : Expr) :
    (∃ again, Program.parse tree.source = .ok again ∧ again.unplaced = tree.unplaced) ↔
      tree.Canonical := by
  constructor
  · rintro ⟨again, h, heq⟩
    obtain ⟨hw, hs⟩ := Program.wellFormed_of_parse h
    rw [← wellFormed_unplaced, heq, wellFormed_unplaced] at hw
    rw [← literals_unplaced, heq, literals_unplaced] at hs
    exact ⟨hw, writable_of_parse_source hw hs h⟩
  · rintro ⟨hw, hs⟩
    exact parse_source hw hs

end Expr

namespace Program

/-- The source text of a program's tree is a program with the same tree, unless a number of it is
an infinity. -/
theorem parse_source_iff_finite {source : String} {tree : Expr} (h : parse source = .ok tree) :
    (∃ again, parse tree.source = .ok again ∧ again.bracketed = tree.bracketed) ↔
      ∀ x, .number x ∈ tree.literals → x.toBits.toNat ≠ Binary64.infinity := by
  obtain ⟨hw, hs⟩ := wellFormed_of_parse h
  constructor
  · rintro ⟨again, hagain, _⟩ x hx
    have := Expr.writable_of_parse_source hw hs hagain _ hx
    exact (Value.writable_iff.1 this).2 x rfl
  · intro hfinite
    obtain ⟨again, hagain, heq⟩ := Expr.parse_source hw fun v hv =>
      Value.writable_iff.2 ⟨hs v hv, fun x hx => hfinite x (hx ▸ hv)⟩
    refine ⟨again, hagain, ?_⟩
    rw [← Expr.bracketed_unplaced, heq, Expr.bracketed_unplaced]

theorem parse_source_of_halves :
    ∃ tree, parse "-1.50 == \"inf\"" = .ok tree ∧
      ∃ again, parse tree.source = .ok again ∧ again.bracketed = tree.bracketed := by
  have h : parse "-1.50 == \"inf\"" = .ok
      (.binary
        (.unary ⟨.minus, "-", none, 1, ⟨0, 1⟩⟩ (.literal (.number (Number.ofDecimal ⟨15, 1⟩))))
        ⟨.equalEqual, "==", none, 1, ⟨6, 8⟩⟩ (.literal (.str "inf"))) := by
    decide +kernel
  refine ⟨_, h, (parse_source_iff_finite h).2 ?_⟩
  simp only [Expr.literals, List.cons_append, List.nil_append, List.mem_cons, Value.number.injEq,
    reduceCtorEq, List.not_mem_nil, or_false, forall_eq]
  decide +kernel

/-- A number of 309 digits is written as a word, which is not a program. -/
theorem not_parse_source_of_digits :
    ∃ tree, parse (String.ofList (List.replicate 309 '9')) = .ok tree ∧
      ¬ ∃ again, parse tree.source = .ok again ∧ again.bracketed = tree.bracketed := by
  have hdigits : IsDigits (List.replicate 309 '9') := by
    refine ⟨List.cons_ne_nil _ _, fun c hc => ?_⟩
    rw [List.eq_of_mem_replicate hc]
    decide
  refine ⟨_, parse_ofList_digits hdigits, ?_⟩
  have hsource :
      Number.text (Number.ofDecimal (.ofDigits (List.replicate 309 '9') [])) = "inf" := by
    apply Number.text_of_infinity
    rw [Number.toBits_ofDecimal]
    decide +kernel
  have hfault : parse "inf" = .error (.illFormed [Fault.expectedExpression.report 1 ⟨0, 3⟩]) := by
    decide +kernel
  rintro ⟨again, h, _⟩
  simp only [Expr.source, Expr.literalSource, Value.text, hsource, hfault] at h
  cases h

end Program
end Reckoner
