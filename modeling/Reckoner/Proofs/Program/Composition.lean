import Reckoner.Proofs.Expr.Alignment
import Reckoner.Proofs.Program.Stages
import Reckoner.Proofs.Token.Spacing

/-!
Composition. Two programs may be put in parentheses, with an operator between them. Each is scanned,
parsed and evaluated there as it is by itself, only further on; a newline in front of the closing
parenthesis ends a comment that the program may end with.
-/
namespace Reckoner

def Expr.shift (characters lines : Nat) (e : Expr) : Expr :=
  e.mapOperators (Token.shift characters lines)

def RuntimeError.shift (characters lines : Nat) (error : RuntimeError) : RuntimeError :=
  { error with token := error.token.shift characters lines }

namespace Program

def compose (a op b : String) : String :=
  "(" ++ a ++ "\n)" ++ op ++ "(" ++ b ++ "\n)"

def composeToken (kind : Kind) (a op : String) : Token :=
  let start := a.toList.length + 3
  ⟨kind, op, none, a.toList.count '\n' + 2, ⟨start, start + op.toList.length⟩⟩

end Program

theorem Token.role_shift (characters lines : Nat) (t : Token) :
    (t.shift characters lines).role = t.role :=
  rfl

theorem Expr.eval_shift (characters lines : Nat) (e : Expr) :
    (e.shift characters lines).eval =
      e.eval.mapError (RuntimeError.shift characters lines) :=
  @eval_mapOperators (Token.shift characters lines) (fun _ => rfl) e

theorem filter_map_shift (source : String) (characters lines : Nat) :
    ((scan source).tokens.map (Token.shift characters lines)).filter (·.kind ≠ .eof) =
      (scanned source).map (Token.shift characters lines) := by
  rw [List.filter_map, ← scan_tokens_filter]
  rfl

/-! Parentheses belong to no longer symbol, so anything may come behind them. -/

theorem CutsOff.leftParen (rest : List Char) : CutsOff ['('] (.token .leftParen none) rest := by
  refine ⟨'(', [], rfl, ?_, rfl, rfl⟩
  cases rest <;> rfl

theorem CutsOff.rightParen (rest : List Char) : CutsOff [')'] (.token .rightParen none) rest := by
  refine ⟨')', [], rfl, ?_, rfl, rfl⟩
  cases rest <;> rfl

namespace Program

def grouped (before : List Char) (source : String) : List Token :=
  let front := before ++ ['('] ++ source.toList ++ ['\n']
  ⟨.leftParen, "(", none, lineAfter (before ++ ['(']), .behind before ['(']⟩ ::
    (scanned source).map (Token.shift (before.length + 1) (before.count '\n')) ++
    [⟨.rightParen, ")", none, lineAfter (front ++ [')']), .behind front [')']⟩]

section
variable {source : String} {tree : Expr} (h : parse source = .ok tree) (before : List Char)
include h

theorem derives_grouped :
    Derives .primary (grouped before source)
      (.grouping (tree.shift (before.length + 1) (before.count '\n'))) := by
  have hd := parse_scan_eq_ok_iff.1 (parse_eq_ok_iff.1 h).2
  exact .group rfl rfl (hd.mapOperators (Token.role_shift _ _))

theorem tokenises_grouped {after : List Char} {tokens : List Token} {diagnostics : List Diagnostic}
    (ht : Tokenises (before ++ ['('] ++ source.toList ++ ['\n'] ++ [')']) after
      tokens diagnostics) :
    Tokenises before ('(' :: source.toList ++ '\n' :: ')' :: after)
      (grouped before source ++ tokens) diagnostics := by
  have hsource := (tokenises_scan source).shift (before ++ ['('])
  rw [List.append_nil, (parse_eq_ok_iff.1 h).1] at hsource
  have hinner := hsource.append_newline (by simp) (.cutOff (.rightParen after) ht)
  rw [filter_map_shift] at hinner
  have hopen := Tokenises.cutOff (.leftParen _) hinner
  simpa [grouped] using hopen

end

def leftPart (a : String) : List Char :=
  ['('] ++ a.toList ++ ['\n'] ++ [')']

theorem length_leftPart (a : String) : (leftPart a).length = a.toList.length + 3 := by
  simp only [leftPart, List.length_append, List.length_singleton]
  omega

section
variable {a b op : String} {kind : Kind} {left right : Expr}
  (hop : kind.spelling? = some op) (hk : kind.level?.isSome)
include hop hk

theorem cutsOff_operator {rest : List Char} (hrest : ∀ d ∈ rest.head?, d ≠ '=' ∧ d ≠ '/') :
    CutsOff op.toList (.token kind none) rest := by
  refine .symbol ?_ ?_ hrest
  · rw [hop, String.ofList_toList]
  · rintro word rfl
    cases hk

theorem newline_notMem_operator : '\n' ∉ op.toList := by
  cases kind <;> cases hk <;> cases hop <;> decide

theorem count_leftPart_append : (leftPart a ++ op.toList).count '\n' = a.toList.count '\n' + 1 := by
  have hnone := List.count_eq_zero_of_not_mem (newline_notMem_operator hop hk)
  simp [leftPart, hnone]

theorem composeToken_eq :
    ⟨kind, String.ofList op.toList, none, lineAfter (leftPart a ++ op.toList),
      .behind (leftPart a) op.toList⟩ = composeToken kind a op := by
  rw [lineAfter, count_leftPart_append hop hk, Span.behind, length_leftPart, String.ofList_toList,
    Nat.add_comm]
  rfl

variable (ha : parse a = .ok left) (hb : parse b = .ok right)
include ha hb

theorem tokenises_compose :
    ∃ last : Token, last.kind = .eof ∧ Tokenises [] (compose a op b).toList
      (grouped [] a ++ composeToken kind a op :: (grouped (leftPart a ++ op.toList) b ++ [last]))
      [] := by
  let whole := leftPart a ++ op.toList ++ ['('] ++ b.toList ++ ['\n'] ++ [')']
  refine ⟨⟨.eof, "", none, lineAfter whole, .behind whole []⟩, rfl, ?_⟩
  have hend := @Tokenises.done whole [] .nil
  rw [List.append_nil] at hend
  have hright := tokenises_grouped hb (leftPart a ++ op.toList) hend
  have hoperator := Tokenises.cutOff (cutsOff_operator hop hk (by simp)) hright
  rw [composeToken_eq hop hk] at hoperator
  have hleft := tokenises_grouped ha [] hoperator
  simpa [compose] using hleft

theorem derives_compose :
    Derives (.chain .equality)
      (grouped [] a ++ composeToken kind a op :: grouped (leftPart a ++ op.toList) b)
      (.binary (.grouping (left.shift 1 0)) (composeToken kind a op)
        (.grouping (right.shift (a.toList.length + op.toList.length + 4)
          (a.toList.count '\n' + 1)))) := by
  obtain ⟨level, hlevel⟩ := Option.isSome_iff_exists.1 hk
  have hrank : level.rank < Nonterminal.primary.rank := Nat.lt_succ_of_lt level.rank_lt_unaryRank
  have hleft := (derives_grouped ha []).toChain (Nat.le_of_lt hrank)
  have hright := (derives_grouped hb (leftPart a ++ op.toList)).toOperand hrank
  have hmem : (composeToken kind a op).kind ∈ level.operators :=
    (level.mem_operators_iff kind).2 hlevel
  have hbinary := Derives.binary hleft hmem hright
  have hlength : (leftPart a ++ op.toList).length + 1 = a.toList.length + op.toList.length + 4 := by
    rw [List.length_append, length_leftPart]
    omega
  rw [hlength, count_leftPart_append hop hk] at hbinary
  exact hbinary.toChain (Nat.zero_le _)

theorem parse_compose :
    (scan (compose a op b)).diagnostics = [] ∧
      parse (compose a op b) = .ok (.binary (.grouping (left.shift 1 0)) (composeToken kind a op)
        (.grouping (right.shift (a.toList.length + op.toList.length + 4)
          (a.toList.count '\n' + 1)))) := by
  obtain ⟨last, hlast, ht⟩ := tokenises_compose hop hk ha hb
  have hparse := @Expr.parse_of_derives _ [] _ _ (derives_compose hop hk ha hb) hlast
  rw [List.append_assoc, List.cons_append] at hparse
  rw [parse_eq_ok_iff, scan_of_tokenises ht]
  exact ⟨rfl, rfl, hparse⟩

end

/-- Composition. Two programs in parentheses with a binary operator between them are scanned without
a fault and parsed into their trees under that operator; the left runtime error comes first, then
the right one, then the rule of the operator. -/
theorem run_compose {a b op : String} {kind : Kind} {left right : Expr}
    (hop : kind.spelling? = some op) (hk : kind.level?.isSome)
    (ha : parse a = .ok left) (hb : parse b = .ok right) :
    let operator := composeToken kind a op
    let characters := a.toList.length + op.toList.length + 4
    let lines := a.toList.count '\n' + 1
    (scan (compose a op b)).diagnostics = [] ∧
      parse (compose a op b) = .ok (.binary (.grouping (left.shift 1 0)) operator
        (.grouping (right.shift characters lines))) ∧
      (∀ e, run a = .error e → ∃ r, e = .runtime r ∧
        run (compose a op b) = .error (.runtime (r.shift 1 0))) ∧
      (∀ v e, run a = .ok v → run b = .error e → ∃ r, e = .runtime r ∧
        run (compose a op b) = .error (.runtime (r.shift characters lines))) ∧
      ∀ v w, run a = .ok v → run b = .ok w →
        run (compose a op b) = (Value.applyBinary operator v w).mapError .runtime := by
  intro operator characters lines
  obtain ⟨hdiagnostics, hparse⟩ := parse_compose hop hk ha hb
  have hrun : run (compose a op b) = _ := run_of_parse hparse
  rw [Expr.eval, Expr.eval, Expr.eval, Expr.eval_shift, Expr.eval_shift] at hrun
  rw [run_of_parse ha, run_of_parse hb]
  refine ⟨hdiagnostics, hparse, fun e he => ?_, fun v e hv he => ?_, fun v w hv hw => ?_⟩
  · obtain ⟨r, hleft, rfl⟩ := mapError_eq_error_iff.1 he
    refine ⟨r, rfl, ?_⟩
    rw [hrun, hleft]
    rfl
  · obtain ⟨r, hright, rfl⟩ := mapError_eq_error_iff.1 he
    refine ⟨r, rfl, ?_⟩
    rw [hrun, mapError_eq_ok_iff.1 hv, hright]
    rfl
  · rw [hrun, mapError_eq_ok_iff.1 hv, mapError_eq_ok_iff.1 hw]
    rfl

theorem run_compose_of_comment :
    ∃ left right, Kind.slash.spelling? = some "/" ∧ Kind.slash.level?.isSome ∧
      parse "1 // (" = .ok left ∧ parse "-nil" = .ok right ∧
      compose "1 // (" "/" "-nil" = "(1 // (\n)/(-nil\n)" ∧
      parse (compose "1 // (" "/" "-nil") = .ok (.binary (.grouping (left.shift 1 0))
        ⟨.slash, "/", none, 2, ⟨9, 10⟩⟩ (.grouping (right.shift 11 1))) ∧
      run (compose "1 // (" "/" "-nil") =
        .error (.runtime ⟨.operandNotNumber, ⟨.minus, "-", none, 2, ⟨11, 12⟩⟩⟩) := by
  have ha : parse "1 // (" = .ok (.literal (.number (Number.ofDecimal ⟨1, 0⟩))) := by
    decide +kernel
  have hb : parse "-nil" = .ok (.unary ⟨.minus, "-", none, 1, ⟨0, 1⟩⟩ (.literal .nil)) := by
    decide +kernel
  obtain ⟨_, hparse, _, hright, _⟩ := @run_compose _ _ "/" .slash _ _ rfl rfl ha hb
  obtain ⟨r, hr, hrun⟩ := hright _ _ (run_of_parse ha) (run_of_parse hb)
  cases hr
  exact ⟨_, _, rfl, rfl, ha, hb, by decide, hparse, hrun⟩

end Program
end Reckoner
