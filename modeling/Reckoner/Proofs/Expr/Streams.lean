import Reckoner.Expr.Descent
import Reckoner.Proofs.Expr.FirstFault

/-!
Places in a stream of tokens. Every failure there is the failure at some place, so two of them are
merged by their places and messages; and a phrase between two places takes the check of what is left
from the first to the second.
-/
namespace Reckoner

theorem Derives.firstFault_append {n : Nonterminal} {phrase : List Token} {e : Expr}
    (h : Derives n phrase e) (depth index : Nat) (rest : List Token) :
    (Viability.operand depth).firstFault index (phrase ++ rest) =
      (Viability.complete depth).firstFault (index + phrase.length) rest := by
  induction h generalizing depth index rest with
  | operand _ ih | primary _ ih => exact ih depth index rest
  | binary _ hk _ ihl ihr =>
    have hstep := Viability.judge_complete_of_level? ((Level.mem_operators_iff _ _).1 hk) depth
    rw [List.append_assoc, ihl, List.cons_append, Viability.firstFault, hstep, List.length_append,
      List.length_cons]
    dsimp only
    rw [ihr]
    congr 1
    omega
  | unary hk _ ih =>
    rw [List.cons_append, Viability.firstFault, List.length_cons, ← Nat.add_assoc,
      Nat.add_right_comm, ← ih]
    rcases hk with hk | hk <;> simp [Viability.judge, hk]
  | true_ hk | false_ hk | nil_ hk => simp [Viability.firstFault, Viability.judge, hk]
  | literal hk hl =>
    rcases hk with hk | hk <;> simp [Viability.firstFault, Viability.judge, hk, hl]
  | group ho hc _ ih =>
    rw [List.cons_append, List.cons_append, List.append_assoc, Viability.firstFault]
    simp only [Viability.judge, ho]
    rw [ih, List.singleton_append, Viability.firstFault]
    simp only [Viability.judge, hc, List.length_cons, List.length_append, List.length_nil]
    congr 1
    omega

namespace TokenStream

variable {stream : TokenStream} {offset start mid stop i j : Nat} {t : Token}

theorem left_lt (h : stream.tokens[offset]? = some t) (hlt : offset < stop) :
    stream.left stop < stream.left offset := by
  have hbound := (List.getElem?_eq_some_iff.1 h).1
  unfold left
  omega

theorem drop_eq_cons (h : stream.tokens[offset]? = some t) :
    stream.tokens.drop offset = t :: stream.tokens.drop (offset + 1) := by
  obtain ⟨hlt, rfl⟩ := List.getElem?_eq_some_iff.1 h
  exact List.drop_eq_getElem_cons hlt

def Reads (stream : TokenStream) (start : Nat) (phrase : List Token) (stop : Nat) : Prop :=
  stream.tokens.drop start = phrase ++ stream.tokens.drop stop ∧ stop = start + phrase.length

namespace Reads

theorem nil (stream : TokenStream) (start : Nat) : stream.Reads start [] start :=
  ⟨rfl, rfl⟩

theorem single (h : stream.tokens[start]? = some t) : stream.Reads start [t] (start + 1) :=
  ⟨drop_eq_cons h, rfl⟩

variable {before after : List Token}

theorem append (h : stream.Reads start before mid) (h' : stream.Reads mid after stop) :
    stream.Reads start (before ++ after) stop := by
  obtain ⟨hbefore, rfl⟩ := h
  obtain ⟨hafter, rfl⟩ := h'
  refine ⟨by rw [hbefore, hafter, List.append_assoc], ?_⟩
  rw [List.length_append, Nat.add_assoc]

theorem le (h : stream.Reads start before stop) : start ≤ stop :=
  h.2 ▸ Nat.le_add_right _ _

end Reads

/-! The check of what is left. -/

def check (stream : TokenStream) (state : Viability) (offset : Nat) : Option (Fault × Nat) :=
  state.firstFault offset (stream.tokens.drop offset)

section
variable {state next : Viability}

theorem check_of_next (h : stream.tokens[offset]? = some t) (hj : state.judge t = .next next) :
    stream.check state offset = stream.check next (offset + 1) := by
  rw [check, drop_eq_cons h, Viability.firstFault, hj]
  rfl

theorem check_of_reject (h : ∀ t, stream.tokens[offset]? = some t → state.judge t = .reject) :
    stream.check state offset = some (state.fault, offset) := by
  cases ht : stream.tokens[offset]? with
  | none =>
    rw [check, List.drop_eq_nil_iff.2 (List.getElem?_eq_none_iff.1 ht)]
    rfl
  | some t => rw [check, drop_eq_cons ht, Viability.firstFault, h t ht]

theorem check_of_derives {n : Nonterminal} {phrase : List Token} {e : Expr}
    (hr : stream.Reads start phrase stop) (h : Derives n phrase e) (depth : Nat) :
    stream.check (.operand depth) start = stream.check (.complete depth) stop := by
  obtain ⟨hdrop, rfl⟩ := hr
  rw [check, hdrop, h.firstFault_append]
  rfl

end

/-! Failures. -/

def failureAt (stream : TokenStream) (offset : Nat) (message : Option Fault) : Failure :=
  ⟨offset, ⟨(stream.tokens[offset]?.map Token.span).getD stream.endSpan, stream.tokens[offset]?,
    message⟩⟩

section
variable {message message' : Option Fault} {avoided avoided' : Option Failure}

theorem max_failureAt_of_lt (h : i < j) :
    (stream.failureAt j message).max (stream.failureAt i message') =
      stream.failureAt j message := by
  have hle : ¬ j < i := Nat.not_lt.2 (Nat.le_of_lt h)
  simp [Failure.max, failureAt, hle, h]

theorem max_failureAt_of_gt (h : i < j) :
    (stream.failureAt i message).max (stream.failureAt j message') =
      stream.failureAt j message' := by
  simp [Failure.max, failureAt, h]

theorem max_failureAt_self :
    (stream.failureAt i message).max (stream.failureAt i message') =
      stream.failureAt i (message.or message') := by
  simp [Failure.max, failureAt, ParseError.merge]

/-- What was avoided before a place lies further back, or it says nothing about what is expected
there. -/
def Stale (stream : TokenStream) (stop : Nat) (avoided : Option Failure) : Prop :=
  ∀ failure ∈ avoided, ∃ i message, failure = stream.failureAt i message ∧
    (i < stop ∨ i = stop ∧ message = none)

namespace Stale

theorem of_none (stream : TokenStream) (stop : Nat) : Stale stream stop none :=
  fun failure hm => absurd hm (Option.not_mem_none failure)

theorem unexpected (stream : TokenStream) (stop : Nat) :
    Stale stream stop (some (stream.failureAt stop none)) := by
  rintro _ ⟨⟩
  exact ⟨stop, none, rfl, .inr ⟨rfl, rfl⟩⟩

theorem mono (h : Stale stream mid avoided) (hle : mid ≤ stop) : Stale stream stop avoided := by
  intro failure hm
  obtain ⟨i, message, rfl, hi⟩ := h failure hm
  refine ⟨i, message, rfl, ?_⟩
  rcases hi with hlt | ⟨rfl, hnone⟩
  · exact .inl (Nat.lt_of_lt_of_le hlt hle)
  · rcases Nat.eq_or_lt_of_le hle with heq | hlt
    · exact .inr ⟨heq, hnone⟩
    · exact .inl hlt

theorem merge (h : Stale stream stop avoided) (h' : Stale stream stop avoided') :
    Stale stream stop (avoided.merge Failure.max avoided') := by
  cases avoided with
  | none => cases avoided' <;> exact h'
  | some failure =>
    cases avoided' with
    | none => exact h
    | some failure' =>
      rintro _ ⟨⟩
      obtain ⟨i, message, rfl, hi⟩ := h failure rfl
      obtain ⟨j, message', rfl, hj⟩ := h' failure' rfl
      rcases Nat.lt_trichotomy i j with hlt | rfl | hgt
      · rw [max_failureAt_of_gt hlt]
        exact ⟨j, message', rfl, hj⟩
      · rw [max_failureAt_self]
        refine ⟨i, _, rfl, ?_⟩
        rcases hi with hlt | ⟨heq, rfl⟩
        · exact .inl hlt
        · exact hj
      · rw [max_failureAt_of_lt hgt]
        exact ⟨i, message, rfl, hi⟩

theorem merge_failureAt (h : Stale stream stop avoided) (hi : stop < i) :
    avoided.merge Failure.max (some (stream.failureAt i message)) =
      some (stream.failureAt i message) := by
  cases avoided with
  | none => rfl
  | some failure =>
    obtain ⟨j, message', rfl, hj⟩ := h failure rfl
    exact congrArg some (max_failureAt_of_gt (by omega))

theorem elim_failureAt (h : Stale stream stop avoided) (hi : stop ≤ i) :
    avoided.elim (stream.failureAt i message) (stream.failureAt i message).max =
      stream.failureAt i message := by
  cases avoided with
  | none => rfl
  | some failure =>
    obtain ⟨j, message', rfl, hj⟩ := h failure rfl
    rcases hj with hlt | ⟨rfl, rfl⟩
    · exact max_failureAt_of_lt (by omega)
    · rcases Nat.eq_or_lt_of_le hi with rfl | hlt
      · simp [max_failureAt_self]
      · exact max_failureAt_of_lt hlt

end Stale
end
end TokenStream

namespace TokenParser

open TokenStream

variable {stream : TokenStream} {offset : Nat} {kinds : List Kind}

theorem oneOf_of_mem {t : Token} (h : stream.tokens[offset]? = some t) (hk : t.kind ∈ kinds) :
    oneOf kinds stream offset = .ok ⟨t, offset + 1, none⟩ := by
  simp [oneOf, filterMap, h, hk]

theorem oneOf_of_notMem (h : ∀ t, stream.tokens[offset]? = some t → t.kind ∉ kinds) :
    oneOf kinds stream offset = .error (stream.failureAt offset none) := by
  cases ht : stream.tokens[offset]? with
  | none => simp [oneOf, filterMap, ht, failureAt]
  | some t => simp [oneOf, filterMap, ht, h t ht, failureAt, ParseError.unexpected]

theorem expected_of_mem {t : Token} (fault : Fault) (h : stream.tokens[offset]? = some t)
    (hk : t.kind ∈ kinds) :
    (oneOf kinds).withMessage fault stream offset = .ok ⟨t, offset + 1, none⟩ := by
  rw [withMessage, oneOf_of_mem h hk]
  rfl

theorem expected_of_notMem (fault : Fault)
    (h : ∀ t, stream.tokens[offset]? = some t → t.kind ∉ kinds) :
    (oneOf kinds).withMessage fault stream offset =
      .error (stream.failureAt offset (some fault)) := by
  rw [withMessage, oneOf_of_notMem h]
  rfl

section
variable {α β γ : Type} {p : TokenParser α} {q : TokenParser β} {a : α} {mid : Nat}

theorem andThen_of_ok (h : p stream offset = .ok ⟨a, mid, none⟩) :
    p.andThen q stream offset = (q stream mid).map fun success =>
      ⟨(a, success.value), success.offset, success.avoided⟩ := by
  unfold andThen
  rw [h]
  dsimp only
  cases q stream mid with
  | error failure => rfl
  | ok success => obtain ⟨value, stop, _ | failure⟩ := success <;> rfl

theorem andThen_andThen_of_ok {r : TokenParser γ} (h : p stream offset = .ok ⟨a, mid, none⟩) :
    (p.andThen q).andThen r stream offset = ((q.andThen r) stream mid).map fun success =>
      ⟨((a, success.value.1), success.value.2), success.offset, success.avoided⟩ := by
  rw [andThen, andThen_of_ok h, andThen]
  cases q stream mid with
  | error failure => rfl
  | ok first =>
    dsimp only [Except.map]
    cases r stream first.offset <;> rfl

theorem rounds_of_error {failure : Failure} (h : p stream offset = .error failure) :
    p.rounds stream offset = ⟨[], offset, some failure⟩ := by
  rw [rounds, h]

theorem rounds_of_ok {success : Success α} (h : p stream offset = .ok success)
    (hlt : stream.left success.offset < stream.left offset) :
    p.rounds stream offset =
      ⟨success.value :: (p.rounds stream success.offset).value,
        (p.rounds stream success.offset).offset,
        success.avoided.merge Failure.max (p.rounds stream success.offset).avoided⟩ := by
  conv => lhs; rw [rounds, h]
  exact if_pos hlt

end
end TokenParser
end Reckoner
