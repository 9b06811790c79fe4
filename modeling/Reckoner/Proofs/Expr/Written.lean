import Reckoner.Expr
import Reckoner.Proofs.Expr.Derivation
import Reckoner.Proofs.Token.Scanning

/-!
Source texts of trees. The text of a well-formed tree is cut into the tokens that are written for
it, in front of a blank or a closing parenthesis as well as at the end. Where all its literals can
be written as what they are, these tokens derive the tree.
-/
namespace Reckoner

/-- Literals that some text stands for. An infinity is one of them, as the value of a number with
too many digits. -/
def Value.Scannable : Value → Prop
  | .nil | .bool _ => True
  | .number x => x.toBits.toNat ≤ Binary64.infinity
  | .str s => '"' ∉ s.toList

theorem Value.writable_iff {value : Value} :
    value.Writable ↔ value.Scannable ∧
      ∀ x, value = .number x → x.toBits.toNat ≠ Binary64.infinity := by
  cases value with
  | number x =>
    simp only [Writable, Scannable, Value.number.injEq, forall_eq']
    omega
  | nil | bool | str => simp [Writable, Scannable]

def Token.bare (kind : Kind) (lexeme : String) (literal : Option Value) : Token :=
  ⟨kind, lexeme, literal, 0, ⟨0, 0⟩⟩

def Value.written : Value → Token
  | .nil => .bare (.keyword .nil_) "nil" none
  | .bool true => .bare (.keyword .true_) "true" none
  | .bool false => .bare (.keyword .false_) "false" none
  | .number x =>
    -- The name of an infinity is not a number.
    if x.toBits.toNat = Binary64.infinity then .bare .identifier "inf" none
    else .bare .number (Number.text x) (some (.number x))
  | .str s => .bare .string ("\"" ++ s ++ "\"") (some (.str s))

def Expr.written : Expr → List Token
  | literal value => [value.written]
  | grouping inner =>
    .bare .leftParen "(" none :: inner.written ++ [.bare .rightParen ")" none]
  | unary operator operand => operator :: operand.written
  | binary left operator right => left.written ++ operator :: right.written

namespace Value

theorem lexeme_written (value : Value) : value.written.lexeme = Expr.literalSource value := by
  cases value with
  | nil => rfl
  | bool b => cases b <;> rfl
  | number x =>
    rw [written]
    split
    next hx => exact (Number.text_of_infinity hx).symm
    next => rfl
  | str s => rfl

theorem lexical_written {value : Value} (h : value.Scannable) : value.written.Lexical := by
  cases value with
  | nil => exact Lexes.reserved .nil_
  | bool b =>
    cases b with
    | true => exact Lexes.reserved .true_
    | false => exact Lexes.reserved .false_
  | number x =>
    rw [written]
    split
    next =>
      have hword : IsWord ['i', 'n', 'f'] :=
        isWord_iff.2 ⟨_, _, rfl, rfl, List.all_eq_true.1 (by decide)⟩
      exact .identifier hword (by decide)
    next hx => exact Number.lexes_text (Nat.lt_of_le_of_ne h hx)
  | str s =>
    have := Lexes.string h
    rw [String.ofList_toList] at this
    simpa [Token.Lexical, written, Token.bare] using this

theorem spelling?_written (value : Value) :
    value.written.kind.spelling? = none ∨ ∃ word, value.written.kind = .keyword word := by
  cases value with
  | nil => exact .inr ⟨_, rfl⟩
  | bool b => cases b <;> exact .inr ⟨_, rfl⟩
  | number x =>
    rw [written]
    split <;> exact .inl rfl
  | str s => exact .inl rfl

theorem head_literalSource {value : Value} (h : value.Scannable) :
    ∃ c, (Expr.literalSource value).toList.head? = some c ∧ c ≠ '=' ∧ c ≠ '/' := by
  have hlexical := lexical_written h
  rw [Token.Lexical, lexeme_written] at hlexical
  obtain ⟨c, more, hcons, _⟩ := @Lexes.cutsOff _ [] _ _ hlexical (by simp)
  have hhead : (Expr.literalSource value).toList.head? = some c := by
    rw [hcons]
    rfl
  exact ⟨c, hhead, hlexical.head_ne (spelling?_written value) c hhead⟩

theorem operand?_written {value : Value} (h : value.Writable) :
    value.written.operand? = some value := by
  cases value with
  | nil | str s => rfl
  | bool b => cases b <;> rfl
  | number x =>
    have hx : ¬ x.toBits.toNat = Binary64.infinity := Nat.ne_of_lt h
    rw [written, if_neg hx]
    rfl

end Value

theorem Token.Plain.cutsInto {t : Token} {rest : List Char} (h : t.Plain)
    (hk : ∀ word, t.kind ≠ .keyword word) (hrest : ∀ d ∈ rest.head?, d ≠ '=' ∧ d ≠ '/') :
    CutsInto t.lexeme.toList [t.face] rest := by
  have hs : t.kind.spelling? = some (String.ofList t.lexeme.toList) := by
    rw [String.ofList_toList]
    exact h.1
  rw [face, h.2]
  exact (CutsOff.symbol hs hk hrest).cutsInto

theorem Token.Plain.lexeme_of_isUnary {t : Token} (h : t.Plain) (hk : t.kind.isUnary) :
    t.lexeme = "!" ∨ t.lexeme = "-" := by
  have hs := h.1
  rcases Kind.isUnary_iff.1 hk with hk | hk
  · rw [hk] at hs
    exact .inl (Option.some.inj hs).symm
  · rw [hk] at hs
    exact .inr (Option.some.inj hs).symm

namespace Expr

/-- What may come right after a tree that is written out. -/
def Ends (rest : List Char) : Prop :=
  ∀ d ∈ rest.head?, d = ' ' ∨ d = ')'

theorem Ends.ne {rest : List Char} (h : Ends rest) : ∀ d ∈ rest.head?, d ≠ '=' ∧ d ≠ '/' := by
  intro d hd
  rcases h d hd with rfl | rfl <;> decide

theorem Ends.separates {rest : List Char} (h : Ends rest) :
    ∀ d ∈ rest.head?, Lexeme.separates d := by
  intro d hd
  rcases h d hd with rfl | rfl <;> decide

theorem head_source {e : Expr} (hw : e.WellFormed) (hs : ∀ v ∈ e.literals, v.Scannable) :
    ∃ c, e.source.toList.head? = some c ∧ c ≠ '=' ∧ c ≠ '/' := by
  induction e with
  | literal value => exact Value.head_literalSource (hs value List.mem_cons_self)
  | grouping inner => exact ⟨'(', by simp [source], by decide⟩
  | unary operator operand =>
    obtain ⟨hk, hp, _⟩ := hw
    rcases hp.lexeme_of_isUnary hk with hx | hx
    · exact ⟨'!', by simp [source, hx], by decide⟩
    · exact ⟨'-', by simp [source, hx], by decide⟩
  | binary left operator right ihl =>
    obtain ⟨_, _, _, _, _, hl, _⟩ := hw
    obtain ⟨c, hc, hne⟩ := ihl hl fun v hv => hs v (List.mem_append_left _ hv)
    refine ⟨c, ?_, hne⟩
    simp [source, hc]

theorem cutsInto_written {e : Expr} (hw : e.WellFormed) (hs : ∀ v ∈ e.literals, v.Scannable)
    {rest : List Char} (hrest : Ends rest) :
    CutsInto e.source.toList (e.written.map Token.face) rest := by
  induction e generalizing rest with
  | literal value =>
    have hl := Lexes.cutsInto (Value.lexical_written (hs value List.mem_cons_self)) hrest.separates
    simpa [source, written, Token.face, Value.lexeme_written] using hl
  | grouping inner ih =>
    obtain ⟨c, hc, hne⟩ := head_source (show inner.WellFormed from hw) hs
    have hopen : CutsInto ['('] [(Token.bare .leftParen "(" none).face]
        ((inner.source.toList ++ [')']) ++ rest) :=
      (CutsOff.symbol rfl (by simp [Token.bare]) (by simp [hc, hne])).cutsInto
    have hclose : CutsInto [')'] [(Token.bare .rightParen ")" none).face] rest :=
      (CutsOff.symbol rfl (by simp [Token.bare]) hrest.ne).cutsInto
    have hinner := @ih hw hs ([')'] ++ rest) (by simp [Ends])
    simpa [source, written] using hopen.append (hinner.append hclose)
  | unary operator operand ih =>
    obtain ⟨hk, hp, _, hw⟩ := hw
    obtain ⟨c, hc, hne⟩ := head_source hw hs
    have hoperator : CutsInto operator.lexeme.toList [operator.face]
        (operand.source.toList ++ rest) := by
      apply hp.cutsInto
      · rintro word hword
        simp [hword, Kind.isUnary] at hk
      · simp [hc, hne]
    simpa [source, written] using hoperator.append (ih hw hs hrest)
  | binary left operator right ihl ihr =>
    obtain ⟨level, hk, hp, _, _, hl, hr⟩ := hw
    have hleft := @ihl hl (fun v hv => hs v (List.mem_append_left _ hv))
      ([' '] ++ (operator.lexeme.toList ++ ([' '] ++ right.source.toList)) ++ rest) (by simp [Ends])
    have hoperator : CutsInto operator.lexeme.toList [operator.face]
        (([' '] ++ right.source.toList) ++ rest) := by
      apply hp.cutsInto
      · rintro word hword
        simp [hword, Kind.level?] at hk
      · simp
    have hright := ihr hr (fun v hv => hs v (List.mem_append_right _ hv)) hrest
    have hblank (rest : List Char) : CutsInto [' '] [] rest := .blank rfl rest
    simpa [source, written] using
      hleft.append ((hblank _).append (hoperator.append ((hblank _).append hright)))

/-- The tree is derived from its tokens, at each level that it binds tightly enough for. -/
theorem exists_derives_written {e : Expr} (hw : e.WellFormed) (hs : ∀ v ∈ e.literals, v.Writable) :
    ∃ n, Derives n e.written e ∧
      ∀ rank ≤ Level.unaryRank, e.BindsAtLeast rank → rank ≤ n.rank := by
  induction e with
  | literal value =>
    have ho := Value.operand?_written (hs value List.mem_cons_self)
    exact ⟨.primary, .ofOperand? ho, fun rank hr _ => Nat.le_succ_of_le hr⟩
  | grouping inner ih =>
    obtain ⟨n, hd, _⟩ := ih hw hs
    have hd : Derives (.chain .equality) inner.written inner := hd.toChain (Nat.zero_le _)
    exact ⟨.primary, .group rfl rfl hd, fun rank hr _ => Nat.le_succ_of_le hr⟩
  | unary operator operand ih =>
    obtain ⟨hk, _, hb, hw⟩ := hw
    obtain ⟨n, hd, hrank⟩ := ih hw hs
    have hd := hd.toUnary (hrank _ (Nat.le_refl _) hb)
    exact ⟨.unary, .unary (Kind.isUnary_iff.1 hk) hd, fun rank hr _ => hr⟩
  | binary left operator right ihl ihr =>
    obtain ⟨level, hk, _, hbl, hbr, hl, hr⟩ := hw
    obtain ⟨nl, hdl, hrankl⟩ := ihl hl fun v hv => hs v (List.mem_append_left _ hv)
    obtain ⟨nr, hdr, hrankr⟩ := ihr hr fun v hv => hs v (List.mem_append_right _ hv)
    have hlt := level.rank_lt_unaryRank
    have hdl := hdl.toChain (hrankl _ (Nat.le_of_lt hlt) hbl)
    have hdr := hdr.toOperand (hrankr _ hlt hbr)
    refine ⟨.chain level, .binary hdl ((Level.mem_operators_iff _ _).2 hk) hdr, ?_⟩
    rintro rank _ ⟨level', hk', hle⟩
    obtain rfl := Option.some.inj (hk.symm.trans hk')
    exact hle

theorem derives_written {e : Expr} (hw : e.WellFormed) (hs : ∀ v ∈ e.literals, v.Writable) :
    Derives (.chain .equality) e.written e := by
  obtain ⟨n, hd, _⟩ := exists_derives_written hw hs
  exact hd.toChain (Nat.zero_le _)

theorem written_mem {e : Expr} {value : Value} (h : value ∈ e.literals) :
    value.written ∈ e.written := by
  induction e with
  | literal =>
    rw [List.mem_singleton.1 h]
    exact List.mem_cons_self
  | grouping inner ih => exact List.mem_cons_of_mem _ (List.mem_append_left _ (ih h))
  | unary operator operand ih => exact List.mem_cons_of_mem _ (ih h)
  | binary left operator right ihl ihr =>
    rcases List.mem_append.1 h with h | h
    · exact List.mem_append_left _ (ihl h)
    · exact List.mem_append_right _ (List.mem_cons_of_mem _ (ihr h))

theorem writable_of_derives {e e' : Expr} {n : Nonterminal} (hd : Derives n e.written e')
    (hs : ∀ v ∈ e.literals, v.Scannable) : ∀ v ∈ e.literals, v.Writable := by
  intro v hv
  rw [Value.writable_iff]
  refine ⟨hs v hv, ?_⟩
  rintro x rfl hx
  have := hd.mem_tokens _ (written_mem hv)
  simp [Value.written, hx, Token.bare, Kind.isOperator, Kind.isUnary, Kind.level?,
    Token.operand?] at this

end Expr

/-! What is scanned has nothing in it that could not be written. -/

theorem Kind.isSome_spelling?_of_isOperator {kind : Kind} (h : kind.isOperator) :
    kind.spelling?.isSome := by
  cases kind <;> first | rfl | cases h

theorem Lexes.plain {text : List Char} {kind : Kind} {literal : Option Value}
    (h : Lexes text kind literal) (hk : kind.spelling?.isSome) :
    kind.spelling? = some (String.ofList text) ∧ literal = none := by
  cases h with
  | symbol hs _ => exact ⟨hs, rfl⟩
  | keyword hmem =>
    rw [mem_reservedWords_iff.1 hmem, String.ofList_toList]
    exact ⟨rfl, rfl⟩
  | whole | decimal | string | identifier => cases hk

theorem Token.Lexical.plain {t : Token} (h : t.Lexical) (hk : t.kind.spelling?.isSome) :
    t.Plain := by
  have := Lexes.plain h hk
  rwa [String.ofList_toList] at this

theorem Token.Lexical.plain_of_isOperator {t : Token} (h : t.Lexical) (hk : t.kind.isOperator) :
    t.Plain :=
  h.plain (Kind.isSome_spelling?_of_isOperator hk)

theorem Lexes.scannable {text : List Char} {kind : Kind} {value : Value}
    (h : Lexes text kind (some value)) : value.Scannable := by
  cases h with
  | whole | decimal => exact Number.toBits_ofDecimal_le _
  | string hb => simpa [Value.Scannable] using hb

theorem Derives.wellFormed {n : Nonterminal} {tokens : List Token} {e : Expr}
    (h : Derives n tokens e) (ht : ∀ t ∈ tokens, t.Lexical) :
    e.WellFormed ∧ e.BindsAtLeast n.rank ∧ ∀ v ∈ e.literals, v.Scannable := by
  induction h with
  | @operand level tokens e _ ih =>
    obtain ⟨hw, hb, hs⟩ := ih ht
    rw [level.rank_operand] at hb
    exact ⟨hw, hb.mono (Nat.le_succ _), hs⟩
  | primary _ ih =>
    obtain ⟨hw, hb, hs⟩ := ih ht
    exact ⟨hw, hb.mono (Nat.le_succ _), hs⟩
  | @binary level before after left right operator _ hk _ ihl ihr =>
    obtain ⟨hwl, hbl, hsl⟩ := ihl fun t hm => ht t (List.mem_append_left _ hm)
    obtain ⟨hwr, hbr, hsr⟩ := ihr fun t hm =>
      ht t (List.mem_append_right _ (List.mem_cons_of_mem _ hm))
    rw [level.rank_operand] at hbr
    have hp := (ht operator (by simp)).plain_of_isOperator (Kind.isOperator_of_mem_operators hk)
    rw [Level.mem_operators_iff] at hk
    refine ⟨⟨level, hk, hp, hbl, hbr, hwl, hwr⟩, ⟨level, hk, Nat.le_refl _⟩, ?_⟩
    intro v hv
    exact (List.mem_append.1 hv).elim (hsl v) (hsr v)
  | @unary tokens e operator hk _ ih =>
    obtain ⟨hw, hb, hs⟩ := ih fun t hm => ht t (List.mem_cons_of_mem _ hm)
    have hp := (ht operator List.mem_cons_self).plain_of_isOperator (Kind.isOperator_of_unary hk)
    exact ⟨⟨Kind.isUnary_iff.2 hk, hp, hb, hw⟩, trivial, hs⟩
  | true_ | false_ | nil_ =>
    simp [Expr.WellFormed, Expr.BindsAtLeast, Expr.literals, Value.Scannable]
  | @literal t value _ hl =>
    have hs := ht t List.mem_cons_self
    rw [Token.Lexical, hl] at hs
    simpa [Expr.WellFormed, Expr.BindsAtLeast, Expr.literals] using hs.scannable
  | group _ _ _ ih =>
    obtain ⟨hw, _, hs⟩ := ih fun t hm => ht t (by simp [hm])
    exact ⟨hw, trivial, hs⟩

end Reckoner
