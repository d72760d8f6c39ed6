import PolicyEval.Proofs.Eval.Realm

/-!
# Plans that count in the five ways

The plans of expressions, comparisons and renderings count expressions, calls, primitives, forces
and list cells, and nothing else.

* `Plan.IsStandard` — every count of a plan is one of the five.
* `Expr.plan_isStandard`, `stepPlan_isStandard`, `renderPlan_isStandard` — all plans are such.
-/

namespace PolicyEval

/-- Every count of the plan is one of the five, whatever its requests are met with. -/
def Plan.IsStandard {α : Type} : Plan α → Prop
  | done _ | fail _ => True
  | count step next => Counters.IsStep step ∧ next.IsStandard
  | eval _ _ _ next | force _ next | cell _ _ next | closure _ _ next => ∀ v, (next v).IsStandard
  | delay _ _ _ _ next => ∀ x, (next x).IsStandard
  | extend _ _ next => ∀ ρ, (next ρ).IsStandard
  | compare _ next => ∀ b, (next b).IsStandard

section

variable {α β : Type}

theorem Plan.isStandard_lift {result : Except FaultCause β} {next : β → Plan α}
    (h : ∀ b, (next b).IsStandard) : (Plan.lift result next).IsStandard := by
  cases result with
  | ok b => exact h b
  | error cause => trivial

theorem bindingPlan_isStandard (setting : Setting) (env outer : Env)
    (bindings : List (Name × Expr)) (body : Expr) :
    (bindingPlan setting env outer bindings body).IsStandard := by
  have hdelays : ∀ next : List (Name × Thunk) → Plan Value, (∀ bs, (next bs).IsStandard) →
      (Plan.delays setting env bindings next).IsStandard := by
    induction bindings with
    | nil => exact fun next h => h []
    | cons b rest ih => exact fun next h x => ih _ fun bs => h _
  exact hdelays _ fun bs ρ v => trivial

theorem Prim.plan_isStandard (p : Prim) (arg : Value) : (p.plan arg).IsStandard := by
  unfold Prim.plan
  split
  · exact Plan.isStandard_lift fun _ => trivial
  · split
    · exact fun _ => trivial
    · exact fun _ => Plan.isStandard_lift fun _ => trivial
  · trivial

theorem callPlan_isStandard (setting : Setting) (env : Env) (callee : Value) (args : List Expr) :
    (callPlan setting env callee args).IsStandard := by
  cases callee with
  | int | bool | nil | cons => trivial
  | closure tag lambda captured =>
      simp only [callPlan]
      split
      · exact ⟨.call, bindingPlan_isStandard setting env captured _ _⟩
      · trivial
  | prim p =>
      refine ⟨.prim, ?_⟩
      split
      · split
        · exact fun x y => Plan.isStandard_lift fun _ => ⟨.cons, fun _ => trivial⟩
        · exact fun v => p.plan_isStandard v
        · trivial
      · trivial

theorem BinaryOp.plan_isStandard (op : BinaryOp) (left right : Value) :
    (op.plan left right).IsStandard := by
  unfold BinaryOp.plan
  split
  · exact Plan.isStandard_lift fun _ => trivial
  · exact fun _ => trivial

theorem Expr.plan_isStandard (setting : Setting) (env : Env) (e : Expr) :
    (e.plan setting env).IsStandard := by
  cases e with
  | int | bool | null | prim => trivial
  | map => exact fun _ => trivial
  | ident place name =>
      simp only [Expr.plan]
      split
      · exact fun _ => trivial
      · trivial
  | unary => exact fun _ => Plan.isStandard_lift fun _ => trivial
  | binary place op left right =>
      intro a
      simp only
      split
      · refine Plan.isStandard_lift fun x => ?_
        split
        · trivial
        · exact fun _ => Plan.isStandard_lift fun _ => trivial
      · exact fun b => op.plan_isStandard a b
  | call place callee args => exact fun v => callPlan_isStandard setting env v args
  | cond => exact fun _ => Plan.isStandard_lift fun _ _ => trivial
  | letIn place defs body => exact bindingPlan_isStandard setting env env _ body

theorem stepPlan_isStandard (same : Comparison → Bool) (todo : List Comparison) :
    (stepPlan same todo).IsStandard := by
  have hmeeting : ∀ (m : Meeting) (todo : List Comparison), (m.plan todo).IsStandard := by
    intro m todo
    cases m with
    | equal | envs => exact fun _ => trivial
    | unequal => trivial
    | parts => exact fun _ _ _ => trivial
  cases todo with
  | nil => trivial
  | cons c todo =>
      simp only [stepPlan]
      split
      · exact fun _ => trivial
      · cases c with
        | values | envs => exact hmeeting _ todo
        | tails =>
            exact fun _ => Plan.isStandard_lift fun _ _ => Plan.isStandard_lift fun _ _ => trivial

theorem spinePlan_isStandard {item : Value → (String → Plan String) → Plan String}
    (hitem : ∀ v next, (∀ text, (next text).IsStandard) → (item v next).IsStandard)
    {next : String → Plan String} (hnext : ∀ text, (next text).IsStandard) (left : Nat)
    (isFirst : Bool) (out : String) (v : Value) :
    (spinePlan item isFirst out left v next).IsStandard := by
  induction left generalizing isFirst out v with
  | zero => cases v <;> exact hnext _
  | succ left ih =>
      cases v with
      | cons tag head tail =>
          exact fun x => hitem x _ fun element rest => Plan.isStandard_lift fun _ => ih _ _ _
      | int | bool | prim | closure | nil => exact hnext _

theorem renderPlan_isStandard (printDepth room : Nat) (v : Value) {next : String → Plan String}
    (hnext : ∀ text, (next text).IsStandard) :
    (renderPlan printDepth room v next).IsStandard := by
  induction room generalizing v next with
  | zero =>
      cases v with
      | bool b => cases b <;> exact hnext _
      | int | prim | closure | nil | cons => exact hnext _
  | succ room ih =>
      cases v with
      | bool b => cases b <;> exact hnext _
      | int | prim | closure => exact hnext _
      | nil | cons => exact spinePlan_isStandard (fun v next h => ih v h) hnext _ _ _ _

theorem programPlan_isStandard (config : Config) (root : Expr) :
    (programPlan config root).IsStandard :=
  fun v => renderPlan_isStandard _ _ v fun _ => trivial

end

end PolicyEval
