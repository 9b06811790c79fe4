import Reckoner.Expr.Eval

/-!
Evaluation by the stack machine. Run over the nodes of a tree, the machine puts the value of the
tree on its stack and goes on with what comes behind them, or stops with the failure of the tree. So
it never lacks an operand, and what fails is the first operator in post-order that can.
-/
namespace Reckoner

def Node.operator? : Node → Option Token
  | literal _ | grouping => none
  | unary operator | binary operator => some operator

namespace Node

variable {nodes before after : List Node} {stack stack' : List Value}

theorem executeAll_cons (node : Node) (nodes : List Node) (stack : List Value) :
    executeAll (node :: nodes) stack = node.execute stack >>= executeAll nodes :=
  List.foldlM_cons

theorem executeAll_append (before after : List Node) (stack : List Value) :
    executeAll (before ++ after) stack = executeAll before stack >>= executeAll after :=
  List.foldlM_append

theorem executeAll_eq_error {halt : Halt} (h : executeAll nodes stack = .error halt) :
    ∃ before node after stack', nodes = before ++ node :: after ∧
      executeAll before stack = .ok stack' ∧ node.execute stack' = .error halt := by
  induction nodes generalizing stack with
  | nil => cases h
  | cons node nodes ih =>
    rw [executeAll_cons] at h
    cases hnode : node.execute stack with
    | error halt' =>
      rw [hnode] at h
      cases h
      exact ⟨[], node, nodes, stack, rfl, rfl, hnode⟩
    | ok next =>
      rw [hnode] at h
      obtain ⟨before, last, after, stack', rfl, hbefore, hlast⟩ := ih h
      refine ⟨node :: before, last, after, stack', rfl, ?_, hlast⟩
      rw [executeAll_cons, hnode]
      exact hbefore

theorem executeAll_of_execute {node : Node} {halt : Halt}
    (hbefore : executeAll before stack = .ok stack') (hnode : node.execute stack' = .error halt)
    (after : List Node) : executeAll (before ++ node :: after) stack = .error halt := by
  rw [executeAll_append, hbefore]
  change executeAll (node :: after) stack' = _
  rw [executeAll_cons, hnode]
  rfl

theorem operator?_of_execute {node : Node} {error : RuntimeError}
    (h : node.execute stack = .error (.failed error)) : node.operator? = some error.token := by
  unfold execute at h
  split at h
  next => cases h
  next => cases h
  next operator value rest =>
    cases happly : Value.applyUnary operator value <;> rw [happly] at h <;> cases h
    rw [Value.token_of_applyUnary happly]
    rfl
  next operator b a rest =>
    cases happly : Value.applyBinary operator a b <;> rw [happly] at h <;> cases h
    rw [Value.token_of_applyBinary happly]
    rfl
  next => cases h

end Node

namespace Expr

/-- The nodes of a tree push its value, or stop the machine with its failure, whatever is on the
stack and whatever comes behind them. -/
theorem executeAll_postorderOnto (e : Expr) (rest : List Node) (stack : List Value) :
    Node.executeAll (e.postorderOnto rest) stack =
      e.eval.mapError Halt.failed >>= fun value => Node.executeAll rest (value :: stack) := by
  induction e generalizing rest stack with
  | literal value => rfl
  | grouping inner ih =>
    rw [postorderOnto, ih]
    rfl
  | unary operator operand ih =>
    rw [postorderOnto, ih, eval]
    cases operand.eval with
    | error error => rfl
    | ok value =>
      change Node.executeAll (.unary operator :: rest) (value :: stack) =
        (Value.applyUnary operator value).mapError Halt.failed >>= _
      rw [Node.executeAll_cons, Node.execute]
      cases Value.applyUnary operator value <;> rfl
  | binary left operator right ihl ihr =>
    rw [postorderOnto, ihl, eval]
    cases left.eval with
    | error error => rfl
    | ok a =>
      change Node.executeAll (right.postorderOnto (.binary operator :: rest)) (a :: stack) =
        (right.eval >>= Value.applyBinary operator a).mapError Halt.failed >>= _
      rw [ihr]
      cases right.eval with
      | error error => rfl
      | ok b =>
        change Node.executeAll (.binary operator :: rest) (b :: a :: stack) =
          (Value.applyBinary operator a b).mapError Halt.failed >>= _
        rw [Node.executeAll_cons, Node.execute]
        cases Value.applyBinary operator a b <;> rfl

theorem executeAll_of_eval_ok {e : Expr} {value : Value} (h : e.eval = .ok value) :
    Node.executeAll e.postorder [] = .ok [value] := by
  rw [postorder, executeAll_postorderOnto, h]
  rfl

theorem executeAll_of_eval_error {e : Expr} {error : RuntimeError} (h : e.eval = .error error) :
    Node.executeAll e.postorder [] = .error (.failed error) := by
  rw [postorder, executeAll_postorderOnto, h]
  rfl

theorem executeAll_ne_underflow {e : Expr} {before after : List Node}
    (h : e.postorder = before ++ after) : Node.executeAll before [] ≠ .error .underflow := by
  intro hunder
  have hrun : Node.executeAll e.postorder [] = .error .underflow := by
    rw [h, Node.executeAll_append, hunder]
    rfl
  cases heval : e.eval with
  | ok value => cases hrun.symm.trans (executeAll_of_eval_ok heval)
  | error error => cases hrun.symm.trans (executeAll_of_eval_error heval)

/-- The machine that is run over the nodes of a tree in post-order from an empty stack evaluates the
tree. It ends with the value alone on its stack, or stops with the failure of the tree; it never
lacks an operand. What fails is the first node that can, whatever would fail behind it, and the
operator of this node is to blame. -/
theorem eval_iff_executeAll (e : Expr) :
    (∀ value, e.eval = .ok value ↔ Node.executeAll e.postorder [] = .ok [value]) ∧
    (∀ error, e.eval = .error error ↔
      Node.executeAll e.postorder [] = .error (.failed error)) ∧
    (∀ before after, e.postorder = before ++ after →
      Node.executeAll before [] ≠ .error .underflow) ∧
    (∀ error, e.eval = .error error ↔ ∃ before node after stack,
      e.postorder = before ++ node :: after ∧ Node.executeAll before [] = .ok stack ∧
      node.execute stack = .error (.failed error) ∧ node.operator? = some error.token) := by
  have hvalue (value : Value) : e.eval = .ok value ↔
      Node.executeAll e.postorder [] = .ok [value] := by
    refine ⟨executeAll_of_eval_ok, fun h => ?_⟩
    cases heval : e.eval with
    | ok value' => cases h.symm.trans (executeAll_of_eval_ok heval); rfl
    | error error => cases h.symm.trans (executeAll_of_eval_error heval)
  have hfailed (error : RuntimeError) : e.eval = .error error ↔
      Node.executeAll e.postorder [] = .error (.failed error) := by
    refine ⟨executeAll_of_eval_error, fun h => ?_⟩
    cases heval : e.eval with
    | ok value => cases h.symm.trans (executeAll_of_eval_ok heval)
    | error error' => cases h.symm.trans (executeAll_of_eval_error heval); rfl
  refine ⟨hvalue, hfailed, fun before after h => executeAll_ne_underflow h,
    fun error => ⟨fun h => ?_, ?_⟩⟩
  · obtain ⟨before, node, after, stack, hnodes, hbefore, hnode⟩ :=
      Node.executeAll_eq_error ((hfailed error).1 h)
    exact ⟨before, node, after, stack, hnodes, hbefore, hnode, Node.operator?_of_execute hnode⟩
  · rintro ⟨before, node, after, stack, hnodes, hbefore, hnode, _⟩
    rw [hfailed, hnodes]
    exact Node.executeAll_of_execute hbefore hnode after

end Expr
end Reckoner
