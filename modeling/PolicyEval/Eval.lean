import PolicyEval.Eval.Equality
import PolicyEval.Eval.Operation

/-!
# Evaluation

Evaluating an expression enters one level, counts it and follows its form.  The policy is consulted
at three places only: for the arguments of a call, for the right-hand sides of definitions and for
the parts of a list cell.  Operators, tests and all primitives but `cons` are strict under every
policy.

Evaluation need not end, so the evaluator has fuel.  One unit is spent per level of nesting; a
computation that runs out of it says so and has no other result.

* `evalStep` — one level of evaluation over an evaluator for the levels below.
* `eval` — the evaluator with a given amount of fuel.
-/

namespace PolicyEval

/-! ## Operators and primitives -/

/-- A binary operator applied to two values. -/
def applyBinary (ev : Evaluator) (fuel : Nat) (op : BinaryOp) (left right : Value) : Eval Value :=
  match op with
  | .eq => do return .bool (← equal ev fuel left right)
  | .ne => do return .bool !(← equal ev fuel left right)
  | .add => Eval.lift (onInts op left right fun a b => checkedInt (.binary op) (a + b))
  | .sub => Eval.lift (onInts op left right fun a b => checkedInt (.binary op) (a - b))
  | .mul => Eval.lift (onInts op left right fun a b => checkedInt (.binary op) (a * b))
  | .div => Eval.lift (onInts op left right divide)
  | .lt => Eval.lift (onOrder op left right fun a b => decide (a < b))
  | .gt => Eval.lift (onOrder op left right fun a b => decide (b < a))
  | .le => Eval.lift (onOrder op left right fun a b => decide (a ≤ b))
  | .ge => Eval.lift (onOrder op left right fun a b => decide (b ≤ a))
  | .and => Eval.lift (onBools op left right and)
  | .or => Eval.lift (onBools op left right or)

/-- A primitive applied to one value.  `cons` takes two arguments and cannot be applied to one. -/
def applyPrim (ev : Evaluator) (p : Prim) (arg : Value) : Eval Value :=
  match p, arg with
  | .isNumber, .int _ => return .bool true
  | .isNumber, _ => return .bool false
  | .isFunction, v => return .bool v.isFunction
  | .isList, v => return .bool v.isList
  | .isCons, .cons .. => return .bool true
  | .isCons, _ => return .bool false
  | .isNull, .nil => return .bool true
  | .isNull, _ => return .bool false
  | .arity, .closure _ lambda _ => return .int lambda.arity
  | .arity, .prim callee => return .int callee.argCount
  | .arity, v => Eval.fail (.typeMismatch .arity v.describe)
  | .first, .cons _ head _ => force ev head
  | .rest, .cons _ _ tail => forceTail ev tail
  | .first, v | .rest, v => Eval.fail (.notACell p v.describe)
  | .cons, _ => Eval.fail (.primArity p 1)

/-! ## Bindings and calls -/

/-- The thunks of expressions in an environment, made from left to right. -/
def delayAll (ev : Evaluator) (setting : Setting) (env : Env) :
    List (Name × Expr) → Eval (List (Name × Thunk))
  | [] => return []
  | (name, e) :: rest => do
    let thunk ← delay ev setting.policy.args setting env e
    let thunks ← delayAll ev setting env rest
    return (name, thunk) :: thunks

/-- An environment extended by bindings. -/
def Eval.extend (env : Env) (bindings : List (Name × Thunk)) : Eval Env :=
  modifyGet fun s =>
    let (inner, store) := s.store.extend env bindings
    (inner, { s with store })

/-- Evaluates a body in the environment `outer` extended by bindings, whose expressions belong to
the environment `env`. -/
def evalBinding (ev : Evaluator) (setting : Setting) (env outer : Env)
    (bindings : List (Name × Expr)) (body : Expr) : Eval Value := do
  let thunks ← delayAll ev setting env bindings
  let inner ← Eval.extend outer thunks
  ev setting inner body

/-- Calls a closure. -/
def callClosure (ev : Evaluator) (setting : Setting) (env : Env) (lambda : Lambda)
    (captured : Env) (args : List Expr) : Eval Value :=
  if lambda.arity = args.length then do
    Eval.count Counters.countCall
    evalBinding ev setting env captured ((lambda.params.map Binder.name).zip args) lambda.body
  else Eval.fail (.closureArity lambda.arity args.length)

/-- Builds a list cell from two expressions. -/
def evalCons (ev : Evaluator) (setting : Setting) (env : Env) (head tail : Expr) : Eval Value := do
  let (x, y) ←
    match setting.policy.lists with
    | .value => do
      let x ← ev setting env head
      let y ← Eval.lift (asTail (← ev setting env tail))
      pure (Thunk.ready x, Thunk.ready y)
    | lazy => do
      let x ← delay ev lazy setting env head
      let y ← delay ev lazy setting env tail
      pure (x, y)
  Eval.count Counters.countCons
  return .cons (← Eval.freshTag) x y

/-- Calls a primitive. -/
def callPrim (ev : Evaluator) (setting : Setting) (env : Env) (p : Prim) (args : List Expr) :
    Eval Value := do
  Eval.count Counters.countPrim
  match p, args with
  | .cons, [head, tail] => evalCons ev setting env head tail
  | .cons, args => Eval.fail (.primArity p args.length)
  | p, [arg] => do applyPrim ev p (← ev setting env arg)
  | p, args => Eval.fail (.primArity p args.length)

/-! ## The evaluator -/

/-- Evaluates a conjunction or a disjunction.  The left operand decides it if it equals `decisive`,
and then the right one is not looked at. -/
def evalLogical (ev : Evaluator) (setting : Setting) (env : Env) (op : BinaryOp) (decisive : Bool)
    (left right : Expr) : Eval Value := do
  let a ← Eval.lift (boolOperand (.binary op) (← ev setting env left))
  if a = decisive then return .bool a
  else
    let b ← Eval.lift (boolOperand (.binary op) (← ev setting env right))
    return .bool b

/-- Evaluates an expression by its form. -/
def evalForm (ev : Evaluator) (fuel : Nat) (setting : Setting) (env : Env) (e : Expr) :
    Eval Value :=
  match e with
  | .int _ n => return .int n
  | .bool _ b => return .bool b
  | .null _ => return .nil
  | .prim _ p => return .prim p
  | .ident _ name =>
    match env.lookup name with
    | some thunk => force ev thunk
    | none => Eval.fail (.unboundVariable name)
  | .unary _ op operand => do
    Eval.lift (applyUnary op (← ev setting env operand))
  | .binary _ .and left right => evalLogical ev setting env .and false left right
  | .binary _ .or left right => evalLogical ev setting env .or true left right
  | .binary _ op left right => do
    let a ← ev setting env left
    let b ← ev setting env right
    applyBinary ev fuel op a b
  | .call _ callee args => do
    match ← ev setting env callee with
    | .closure _ lambda captured => callClosure ev setting env lambda captured args
    | .prim p => callPrim ev setting env p args
    | v => Eval.fail (.notAFunction v.describe)
  | .map place params body => do
    return .closure (← Eval.freshTag) ⟨place, params, body⟩ env
  | .cond _ test yes no => do
    if ← Eval.lift (boolOperand .test (← ev setting env test)) then ev setting env yes
    else ev setting env no
  | .letIn _ defs body =>
    evalBinding ev setting env env (defs.map fun d => (d.1.name, d.2)) body

/-- One level of evaluation. -/
def evalStep (ev : Evaluator) (fuel : Nat) (setting : Setting) (env : Env) (e : Expr) :
    Eval Value :=
  Eval.within setting.maxDepth e.span do
    Eval.count Counters.countExpression
    evalForm ev fuel setting env e

/-- The evaluator with the given amount of fuel. -/
def eval : Nat → Setting → Env → Expr → Eval Value
  | 0, _, _, _ => throw .outOfFuel
  | fuel + 1, setting, env, e => evalStep (eval fuel) fuel setting env e

end PolicyEval
