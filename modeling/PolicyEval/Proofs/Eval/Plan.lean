import PolicyEval.Program
import PolicyEval.Proofs.Eval.Forms
import PolicyEval.Proofs.Eval.Meeting
import PolicyEval.Proofs.Eval.Operands

/-!
# Plans — what an expression asks for

An expression does not evaluate itself: it asks for parts of it to be evaluated, for thunks to be
forced, for new objects to be made, and goes on with what it was given.  A plan is the tree of these
requests.  It says nothing about how they are met, so one plan can be followed in the store of an
evaluation and in any other account of what requests yield.

* `Plan` — requests and what is done with their results.
* `Expr.plan`, `stepPlan`, `renderPlan` — the plans of expressions, comparisons and renderings.
* `Plan.run` — meets the requests of a plan in the state of an evaluation.
* `evalForm_eq_run`, `compareAll_succ`, `runProgram_eq_run` — the evaluator follows these plans.
-/

namespace PolicyEval

/-- A result, a failure, or a request together with what is done once it is met. -/
inductive Plan (α : Type) where
  /-- The result. -/
  | done (result : α)
  /-- A failure. -/
  | fail (cause : FaultCause)
  /-- Asks for a count. -/
  | count (step : Counters → Counters) (next : Plan α)
  /-- Asks for the value of an expression. -/
  | eval (setting : Setting) (env : Env) (e : Expr) (next : Value → Plan α)
  /-- Asks for the value of a thunk. -/
  | force (thunk : Thunk) (next : Value → Plan α)
  /-- Asks for the thunk of an expression. -/
  | delay (d : Discipline) (setting : Setting) (env : Env) (e : Expr) (next : Thunk → Plan α)
  /-- Asks for a new list cell. -/
  | cell (head tail : Thunk) (next : Value → Plan α)
  /-- Asks for a new closure. -/
  | closure (lambda : Lambda) (env : Env) (next : Value → Plan α)
  /-- Asks for new frames in front of an environment. -/
  | extend (env : Env) (bindings : List (Name × Thunk)) (next : Env → Plan α)
  /-- Asks for the outcome of comparisons. -/
  | compare (todo : List Comparison) (next : Bool → Plan α)

namespace Plan

variable {α β : Type}

/-- Goes on with the result of an operation that needs no request. -/
def lift (result : Except FaultCause β) (next : β → Plan α) : Plan α :=
  match result with
  | .ok b => next b
  | .error cause => .fail cause

/-- Asks for the thunks of expressions, from left to right. -/
def delays (setting : Setting) (env : Env) :
    List (Name × Expr) → (List (Name × Thunk) → Plan α) → Plan α
  | [], next => next []
  | (name, e) :: rest, next =>
    .delay setting.policy.args setting env e fun thunk =>
      delays setting env rest fun thunks => next ((name, thunk) :: thunks)

/-- Meets the requests of a plan in the state of an evaluation; `loop` bounds the comparisons. -/
@[simp] def run (ev : Evaluator) (loop : Nat) : Plan α → Eval α
  | done a => pure a
  | fail cause => Eval.fail cause
  | count step next => do
    Eval.count step
    next.run ev loop
  | eval setting env e next => do
    let v ← ev setting env e
    (next v).run ev loop
  | force thunk next => do
    let v ← PolicyEval.force ev thunk
    (next v).run ev loop
  | delay d setting env e next => do
    let thunk ← PolicyEval.delay ev d setting env e
    (next thunk).run ev loop
  | cell head tail next => do
    let tag ← Eval.freshTag
    (next (.cons tag head tail)).run ev loop
  | closure lambda env next => do
    let tag ← Eval.freshTag
    (next (.closure tag lambda env)).run ev loop
  | extend env bindings next => do
    let inner ← Eval.extend env bindings
    (next inner).run ev loop
  | compare todo next => do
    let b ← compareAll ev loop todo
    (next b).run ev loop

theorem run_lift (ev : Evaluator) (loop : Nat) (result : Except FaultCause β)
    (next : β → Plan α) :
    (lift result next).run ev loop =
      (do
        let b ← Eval.lift result
        (next b).run ev loop) := by
  cases result with
  | ok b => simp only [lift, Eval.lift, pure_bind]
  | error cause => rfl

theorem run_delays (ev : Evaluator) (loop : Nat) (setting : Setting) (env : Env)
    (bindings : List (Name × Expr)) (next : List (Name × Thunk) → Plan α) :
    (delays setting env bindings next).run ev loop =
      (do
        let thunks ← delayAll ev setting env bindings
        (next thunks).run ev loop) := by
  induction bindings generalizing next with
  | nil => simp only [delays, delayAll, pure_bind]
  | cons binding rest ih =>
      obtain ⟨name, e⟩ := binding
      simp only [delays, run, delayAll, bind_assoc, pure_bind, ih]

end Plan

/-! ## The plans of expressions -/

/-- A thunk as the second part of a new list cell: a value that is known must be a list. -/
def Thunk.asTail : Thunk → Except FaultCause Thunk
  | .ready v => (PolicyEval.asTail v).map .ready
  | thunk => .ok thunk

/-- The plan of a body under bindings; see `evalBinding`. -/
def bindingPlan (setting : Setting) (env outer : Env) (bindings : List (Name × Expr))
    (body : Expr) : Plan Value :=
  .delays setting env bindings fun thunks =>
    .extend outer thunks fun inner => .eval setting inner body .done

/-- The plan of a new list cell; see `evalCons`. -/
def consPlan (setting : Setting) (env : Env) (head tail : Expr) : Plan Value :=
  .delay setting.policy.lists setting env head fun x =>
    .delay setting.policy.lists setting env tail fun y =>
      .lift y.asTail fun y => .count Counters.countCons (.cell x y .done)

/-- The plan of a primitive that was given one value; see `applyPrim`. -/
def Prim.plan (p : Prim) (arg : Value) : Plan Value :=
  match p.inspect arg, arg with
  | some result, _ => .lift result .done
  | none, .cons _ head tail =>
    if p = .first then .force head .done else .force tail fun v => .lift (asTail v) .done
  | none, v => .fail (.notACell p v.describe)

/-- The plan of a call whose callee has the given value. -/
def callPlan (setting : Setting) (env : Env) (callee : Value) (args : List Expr) : Plan Value :=
  match callee with
  | .closure _ lambda captured =>
    if lambda.arity = args.length then
      .count Counters.countCall
        (bindingPlan setting env captured ((lambda.params.map Binder.name).zip args) lambda.body)
    else .fail (.closureArity lambda.arity args.length)
  | .prim p =>
    .count Counters.countPrim <|
      if p.argCount = args.length then
        match args with
        | [head, tail] => consPlan setting env head tail
        | [arg] => .eval setting env arg fun v => p.plan v
        | args => .fail (.primArity p args.length)
      else .fail (.primArity p args.length)
  | v => .fail (.notAFunction v.describe)

/-- The plan of an operator that was given both operands; see `applyBinary`. -/
def BinaryOp.plan (op : BinaryOp) (left right : Value) : Plan Value :=
  match strictBinary op left right with
  | some result => .lift result .done
  | none => .compare [.values left right] fun b => .done (.bool (if op = .eq then b else !b))

/-- The plan of an expression, without the level that it enters. -/
def Expr.plan (setting : Setting) (env : Env) : Expr → Plan Value
  | .int _ n => .done (.int n)
  | .bool _ b => .done (.bool b)
  | .null _ => .done .nil
  | .prim _ p => .done (.prim p)
  | .ident _ name =>
    match env.lookup name with
    | some thunk => .force thunk .done
    | none => .fail (.unboundVariable name)
  | .unary _ op operand => .eval setting env operand fun v => .lift (applyUnary op v) .done
  | .binary _ op left right =>
    .eval setting env left fun a =>
      match op.decisive? with
      | some decisive =>
        .lift (boolOperand (.binary op) a) fun a =>
          if a = decisive then .done (.bool a)
          else
            .eval setting env right fun b =>
              .lift (boolOperand (.binary op) b) fun b => .done (.bool b)
      | none => .eval setting env right fun b => op.plan a b
  | .call _ callee args => .eval setting env callee fun v => callPlan setting env v args
  | .map place params body => .closure ⟨place, params, body⟩ env .done
  | .cond _ test yes no =>
    .eval setting env test fun v =>
      .lift (boolOperand .test v) fun b => .eval setting env (if b then yes else no) .done
  | .letIn _ defs body =>
    bindingPlan setting env env (defs.map fun d => (d.1.name, d.2)) body

/-! ## The evaluator follows the plans -/

section

variable (ev : Evaluator) (fuel : Nat) (setting : Setting) (env : Env)

theorem run_bindingPlan (outer : Env) (bindings : List (Name × Expr)) (body : Expr) :
    (bindingPlan setting env outer bindings body).run ev fuel =
      evalBinding ev setting env outer bindings body := by
  simp only [bindingPlan, Plan.run_delays, Plan.run, bind_pure, evalBinding]

theorem run_consPlan (head tail : Expr) :
    (consPlan setting env head tail).run ev fuel = evalCons ev setting env head tail := by
  cases hlists : setting.policy.lists with
  | value =>
      rw [evalCons_eager ev setting env hlists]
      simp only [consPlan, Plan.run, hlists, delay, Plan.run_lift, bind_assoc, pure_bind,
        buildCell]
      congr 1
      funext x
      congr 1
      funext v
      cases hv : asTail v with
      | ok y => simp only [Thunk.asTail, hv, Except.map, Eval.lift, pure_bind]
      | error cause =>
          simp only [Thunk.asTail, hv, Except.map, Eval.lift]
          rfl
  | name | need =>
      rw [evalCons_lazy ev setting env (by rw [hlists]; decide)]
      simp only [consPlan, Plan.run, hlists, delay, Plan.run_lift, bind_assoc, pure_bind,
        buildCell, Thunk.asTail, Eval.lift]

theorem run_primPlan (p : Prim) (arg : Value) :
    (p.plan arg).run ev fuel = applyPrim ev p arg := by
  cases hinspect : p.inspect arg with
  | some result =>
      rw [applyPrim_eq_lift hinspect]
      simp only [Prim.plan, hinspect, Plan.run_lift, Plan.run, bind_pure]
  | none =>
      obtain ⟨tag, head, tail, rfl, rfl | rfl⟩ := Prim.inspect_eq_none hinspect
      · simp only [Prim.plan, Prim.inspect, Plan.run, bind_pure, if_true, applyPrim]
      · simp only [Prim.plan, Prim.inspect, Plan.run, Plan.run_lift, bind_pure, reduceCtorEq,
          if_false, applyPrim, forceTail]

theorem run_callPlan (callee : Value) (args : List Expr) :
    (callPlan setting env callee args).run ev fuel =
      match callee with
      | .closure _ lambda captured => callClosure ev setting env lambda captured args
      | .prim p => callPrim ev setting env p args
      | v => Eval.fail (.notAFunction v.describe) := by
  cases callee with
  | closure tag lambda captured =>
      simp only [callPlan, callClosure]
      split
      · simp only [Plan.run, run_bindingPlan]
      · rfl
  | prim p =>
      simp only [callPlan, Plan.run]
      by_cases hcount : p.argCount = args.length
      · rcases Prim.args_cases hcount with ⟨rfl, head, tail, rfl⟩ | ⟨hone, arg, rfl⟩
        · rw [callPrim_cons, if_pos hcount]
          simp only [run_consPlan]
        · rw [callPrim_single ev setting env hone, if_pos hcount]
          simp only [Plan.run, run_primPlan]
      · rw [callPrim_mismatch ev setting env hcount, if_neg hcount]
        rfl
  | int n | bool b | nil | cons tag head tail => rfl

theorem run_binaryPlan (op : BinaryOp) (left right : Value) :
    (op.plan left right).run ev fuel = applyBinary ev fuel op left right := by
  cases hstrict : strictBinary op left right with
  | some result =>
      rw [applyBinary_eq_lift hstrict]
      simp only [BinaryOp.plan, hstrict, Plan.run_lift, Plan.run, bind_pure]
  | none => cases op <;> first | rfl | simp [strictBinary] at hstrict

theorem evalForm_eq_run (e : Expr) :
    evalForm ev fuel setting env e = (e.plan setting env).run ev fuel := by
  cases e with
  | int | bool | null | prim | map => rfl
  | ident place name =>
      simp only [evalForm, Expr.plan]
      cases env.lookup name with
      | none => rfl
      | some thunk => simp only [Plan.run, bind_pure]
  | unary place op operand =>
      simp only [evalForm, Expr.plan, Plan.run, Plan.run_lift, bind_pure]
  | binary place op left right =>
      cases hop : op.decisive? with
      | none =>
          rw [evalForm_binary ev fuel setting env hop]
          simp only [Expr.plan, hop, Plan.run, run_binaryPlan]
      | some decisive =>
          rw [evalForm_logical ev fuel setting env hop]
          simp only [Expr.plan, hop, Plan.run, Plan.run_lift, evalLogical]
          congr 1
          funext v
          congr 1
          funext a
          split <;> simp only [Plan.run, Plan.run_lift]
  | call place callee args =>
      simp only [evalForm, Expr.plan, Plan.run]
      exact bind_congr fun v => (run_callPlan ev fuel setting env v args).symm
  | cond place test yes no =>
      simp only [evalForm, Expr.plan, Plan.run, Plan.run_lift, bind_pure]
      congr 1
      funext v
      congr 1
      funext b
      cases b <;> rfl
  | letIn place defs body => exact (run_bindingPlan ev fuel setting env env _ body).symm

end

/-! ## The plans of comparisons -/

/-- Two things that were made by the same step. -/
def Comparison.identical : Comparison → Bool
  | .values left right => left.identical right
  | .envs left right => left.same right
  | .tails _ _ => false

/-- The plan of what a meeting leaves to be compared. -/
def Meeting.plan (todo : List Comparison) : Meeting → Plan Bool
  | .equal => .compare todo .done
  | .unequal => .done false
  | .envs left right => .compare (.envs left right :: todo) .done
  | .parts left right next =>
    .force left fun x => .force right fun y => .compare (.values x y :: next :: todo) .done

/-- The plan of a comparison of two things that are not one and the same. -/
def Comparison.plan (todo : List Comparison) : Comparison → Plan Bool
  | .values left right => (left.meet right).plan todo
  | .envs left right => (left.meet right).plan todo
  | .tails left right =>
    .force left fun x => .lift (asTail x) fun x =>
      .force right fun y => .lift (asTail y) fun y => .compare (.values x y :: todo) .done

/-- The plan of one step of comparing, in which `same` says what is one and the same. -/
def stepPlan (same : Comparison → Bool) : List Comparison → Plan Bool
  | [] => .done true
  | c :: todo => if same c then .compare todo .done else c.plan todo

theorem run_meetingPlan (ev : Evaluator) (fuel : Nat) (todo : List Comparison) (m : Meeting) :
    (m.plan todo).run ev fuel = m.proceed ev fuel todo := by
  cases m <;> simp only [Meeting.plan, Meeting.proceed, Plan.run, bind_pure]

theorem compareAll_succ (ev : Evaluator) (fuel : Nat) (todo : List Comparison) :
    compareAll ev (fuel + 1) todo = (stepPlan Comparison.identical todo).run ev fuel := by
  match todo with
  | [] => rfl
  | .values left right :: todo =>
      rw [compareAll_values, stepPlan]
      by_cases h : left.identical right = true
      · have hsame : (Comparison.values left right).identical = true := h
        rw [if_pos h, if_pos hsame]
        simp only [Plan.run, bind_pure]
      · have hsame : ¬(Comparison.values left right).identical = true := h
        rw [if_neg h, if_neg hsame]
        exact (run_meetingPlan ev fuel todo _).symm
  | .envs left right :: todo =>
      rw [compareAll_envs, stepPlan]
      by_cases h : left.same right = true
      · have hsame : (Comparison.envs left right).identical = true := h
        rw [if_pos h, if_pos hsame]
        simp only [Plan.run, bind_pure]
      · have hsame : ¬(Comparison.envs left right).identical = true := h
        rw [if_neg h, if_neg hsame]
        exact (run_meetingPlan ev fuel todo _).symm
  | .tails left right :: todo =>
      rw [compareAll_tails]
      simp only [stepPlan, Comparison.identical, Comparison.plan, Plan.run, Plan.run_lift,
        forceTail, bind_assoc, bind_pure, Bool.false_eq_true, if_false]

/-! ## The plans of renderings and programs -/

/-- The plan of the elements of a list; see `renderSpine`. -/
def spinePlan (item : Value → (String → Plan String) → Plan String) (isFirst : Bool)
    (out : String) : Nat → Value → (String → Plan String) → Plan String
  | 0, .cons .., next => next (out ++ " ...)")
  | left + 1, .cons _ head tail, next =>
    .force head fun x => item x fun element =>
      .force tail fun rest => .lift (asTail rest) fun rest =>
        spinePlan item false ((if isFirst then out else out ++ " ") ++ element) left rest next
  | _, _, next => next (out ++ ")")

/-- The plan of a rendering; see `renderIn`. -/
def renderPlan (printDepth : Nat) : Nat → Value → (String → Plan String) → Plan String
  | _, .int n, next => next (toString n)
  | _, .bool true, next => next "true"
  | _, .bool false, next => next "false"
  | _, .prim p, next => next p.name
  | _, .closure _ lambda _, next => next ("(closure: " ++ lambda.expr.print ++ ")")
  | 0, _, next => next "..."
  | room + 1, v, next => spinePlan (renderPlan printDepth room) true "(" printDepth v next

/-- The plan of a program: its value, then the text of that value. -/
def programPlan (config : Config) (root : Expr) : Plan String :=
  .eval config.setting .empty root fun v =>
    renderPlan config.printDepth config.printDepth v .done

section

variable (ev : Evaluator) (fuel : Nat)

theorem run_spinePlan {item : Value → Eval String}
    {itemPlan : Value → (String → Plan String) → Plan String}
    (hitem : ∀ v next, (itemPlan v next).run ev fuel = item v >>= fun s => (next s).run ev fuel)
    (left : Nat) (isFirst : Bool) (out : String) (v : Value) (next : String → Plan String) :
    (spinePlan itemPlan isFirst out left v next).run ev fuel =
      renderSpine ev item isFirst out left v >>= fun s => (next s).run ev fuel := by
  induction left generalizing isFirst out v with
  | zero => cases v <;> simp only [spinePlan, renderSpine, pure_bind]
  | succ left ih =>
      cases v with
      | cons tag head tail =>
          simp only [spinePlan, renderSpine, Plan.run, Plan.run_lift, hitem, ih, forceTail,
            bind_assoc]
      | int n | bool b | prim p | closure tag lambda env | nil =>
          simp only [spinePlan, renderSpine, pure_bind]

theorem run_renderPlan (printDepth room : Nat) (v : Value) (next : String → Plan String) :
    (renderPlan printDepth room v next).run ev fuel =
      renderIn ev printDepth room v >>= fun s => (next s).run ev fuel := by
  induction room generalizing v next with
  | zero =>
      cases v with
      | bool b => cases b <;> simp only [renderPlan, renderIn, pure_bind]
      | int n | prim p | closure tag lambda env | nil | cons tag head tail =>
          simp only [renderPlan, renderIn, pure_bind]
  | succ room ih =>
      cases v with
      | bool b => cases b <;> simp only [renderPlan, renderIn, pure_bind]
      | int n | prim p | closure tag lambda env => simp only [renderPlan, renderIn, pure_bind]
      | nil | cons tag head tail =>
          simp only [renderPlan, renderIn]
          exact run_spinePlan ev fuel ih printDepth true "(" _ next

end

theorem runProgram_eq_run (fuel : Nat) (config : Config) (root : Expr) :
    runProgram fuel config root = (programPlan config root).run (eval fuel) fuel := by
  simp only [runProgram, evalProgram, programPlan, Plan.run, run_renderPlan, bind_pure,
    renderValue]

/-- Evaluating is following the plan of the expression one level deeper. -/
theorem eval_succ (fuel : Nat) (setting : Setting) (env : Env) (e : Expr) :
    eval (fuel + 1) setting env e =
      Eval.within setting.maxDepth e.span
        ((Plan.count Counters.countExpression (e.plan setting env)).run (eval fuel) fuel) := by
  simp only [eval, evalStep, evalForm_eq_run, Plan.run]

end PolicyEval
