import PolicyEval.Eval

/-!
# The forms of expressions, case by case

Equations for the branches of the evaluator in which a policy, an operator or a primitive decides
how an expression goes on.  Proofs about evaluation use these instead of the definitions.

* `evalCons_eager`, `evalCons_lazy` — a list cell under the two kinds of list discipline.
* `evalForm_logical`, `evalForm_binary` — operators that look at their right operand only if they
  must, and those that always look at both.
* `callPrim_cons`, `callPrim_single`, `callPrim_mismatch` — calls of primitives.
-/

namespace PolicyEval

/-- Makes a list cell of two thunks. -/
def buildCell (head tail : Thunk) : Eval Value := do
  Eval.count Counters.countCons
  return .cons (← Eval.freshTag) head tail

/-- The value of the left operand that decides a logical operator; no other operator has one. -/
def BinaryOp.decisive? : BinaryOp → Option Bool
  | .and => some false
  | .or => some true
  | _ => none

section

variable (ev : Evaluator) (fuel : Nat) (setting : Setting) (env : Env)

theorem evalCons_eager (h : setting.policy.lists = .value) (head tail : Expr) :
    evalCons ev setting env head tail =
      (do
        let x ← ev setting env head
        let v ← ev setting env tail
        let y ← Eval.lift (asTail v)
        buildCell (.ready x) (.ready y)) := by
  simp only [evalCons, h, buildCell, pure_bind]

theorem evalCons_lazy (h : setting.policy.lists ≠ .value) (head tail : Expr) :
    evalCons ev setting env head tail =
      (do
        let x ← delay ev setting.policy.lists setting env head
        let y ← delay ev setting.policy.lists setting env tail
        buildCell x y) := by
  cases hlists : setting.policy.lists with
  | value => exact absurd hlists h
  | name => simp only [evalCons, hlists, buildCell, pure_bind]
  | need => simp only [evalCons, hlists, buildCell, pure_bind]

theorem evalForm_logical {op : BinaryOp} {decisive : Bool} (h : op.decisive? = some decisive)
    (place : Place) (left right : Expr) :
    evalForm ev fuel setting env (.binary place op left right) =
      evalLogical ev setting env op decisive left right := by
  cases op <;> simp only [BinaryOp.decisive?, Option.some.injEq, reduceCtorEq] at h <;>
    subst h <;> rfl

theorem evalForm_binary {op : BinaryOp} (h : op.decisive? = none) (place : Place)
    (left right : Expr) :
    evalForm ev fuel setting env (.binary place op left right) =
      (do
        let a ← ev setting env left
        let b ← ev setting env right
        applyBinary ev fuel op a b) := by
  cases op <;> simp only [BinaryOp.decisive?, reduceCtorEq] at h <;> rfl

theorem callPrim_cons (head tail : Expr) :
    callPrim ev setting env .cons [head, tail] =
      (do
        Eval.count Counters.countPrim
        evalCons ev setting env head tail) :=
  rfl

theorem callPrim_single {p : Prim} (h : p.argCount = 1) (arg : Expr) :
    callPrim ev setting env p [arg] =
      (do
        Eval.count Counters.countPrim
        let v ← ev setting env arg
        applyPrim ev p v) := by
  cases p <;> first
    | rfl
    | exact absurd h (by decide)

theorem callPrim_mismatch {p : Prim} {args : List Expr} (h : p.argCount ≠ args.length) :
    callPrim ev setting env p args =
      (do
        Eval.count Counters.countPrim
        Eval.fail (.primArity p args.length)) := by
  unfold callPrim
  congr 1
  funext _
  split
  · exact absurd rfl h
  · rfl
  · next hother =>
      refine absurd ?_ h
      cases p <;> first
        | rfl
        | exact (hother rfl).elim
  · rfl

end

/-- A primitive that is called with as many arguments as it takes is `cons` with two of them, or
another one with one. -/
theorem Prim.args_cases {p : Prim} {args : List Expr} (h : p.argCount = args.length) :
    (p = .cons ∧ ∃ head tail, args = [head, tail]) ∨ (p.argCount = 1 ∧ ∃ arg, args = [arg]) := by
  by_cases hp : p = .cons
  · subst hp
    match args, h with
    | [head, tail], _ => exact .inl ⟨rfl, head, tail, rfl⟩
  · have hone : p.argCount = 1 := by cases p <;> first | rfl | exact absurd rfl hp
    obtain ⟨arg, rfl⟩ := List.length_eq_one_iff.1 (h.symm.trans hone)
    exact .inr ⟨hone, arg, rfl⟩

end PolicyEval
