import PolicyEval.Proofs.Depth.Total

/-!
# Faults point at the expression that raised them

A fault is raised without a span, and the innermost expression under evaluation gives it its own as
the fault leaves.  So the span is right if an expression can raise only faults that fit its form,
and if everything that it asks for is an evaluation, whose faults have a span already.  The one
exception is a limit that is reached: it is noticed before an expression is entered, and the
expression around it is blamed.

* `FaultCause.fits` — the forms of expressions that raise a fault themselves.
* `Plan.Raises` — the causes for which a plan itself fails.
* `Expr.plan_raises` — the plan of an expression fails only for causes that fit it.
* `Realm.Blames` — faults have the span of a fitting node, or none for certain causes.
* `fault_blames_node` — the faults of programs.
-/

namespace PolicyEval

/-! ## Causes and forms -/

/-- Whether the node performs the operation. -/
def Operation.isAt : Operation → Expr → Bool
  | .unary op, .unary _ op' _ => decide (op' = op)
  | .binary op, .binary _ op' _ _ => decide (op' = op)
  | .test, .cond .. => true
  | .arity, .call .. => true
  | _, _ => false

/-- Whether an expression whose root is the node can raise the fault itself. -/
def FaultCause.fits : FaultCause → Expr → Bool
  | .unboundVariable name, .ident _ name' => decide (name' = name)
  | .notAFunction _, .call .. | .closureArity .., .call .. | .primArity .., .call .. => true
  | .typeMismatch operation _, e => operation.isAt e
  | .divisionByZero, .binary _ op _ _ => decide (op = .div)
  | .notACell p _, .call .. => decide (p = .first) || decide (p = .rest)
  | .tailNotAList _, .call .. => true
  | .tailNotAList _, .binary _ op _ _ => decide (op = .eq) || decide (op = .ne)
  | .integerOverflow (.unary op), .unary _ op' _ => decide (op' = op)
  | .integerOverflow (.binary op), .binary _ op' _ _ => decide (op' = op)
  | .recursionLimit _, _ => true
  | _, _ => false

/-- The second part of a list cell is no list. -/
def FaultCause.IsTail (cause : FaultCause) : Prop := ∃ found, cause = .tailNotAList found

/-- The operation fails only for causes with the property. -/
def ErrorsIn {α : Type} (C : FaultCause → Prop) (result : Except FaultCause α) : Prop :=
  ∀ cause, result = .error cause → C cause

section

variable {C : FaultCause → Prop} {α β : Type}

theorem ErrorsIn.ok (a : α) : ErrorsIn C (.ok a) := nofun

theorem ErrorsIn.error {cause : FaultCause} (h : C cause) :
    ErrorsIn C (.error cause : Except FaultCause α) := by
  rintro _ ⟨⟩
  exact h

theorem ErrorsIn.bind {first : Except FaultCause α} {next : α → Except FaultCause β}
    (hfirst : ErrorsIn C first) (hnext : ∀ a, ErrorsIn C (next a)) :
    ErrorsIn C (first >>= next) := by
  cases first with
  | ok a => exact hnext a
  | error cause => exact .error (hfirst cause rfl)

theorem intOperand_errorsIn {operation : Operation} (v : Value)
    (h : ∀ found, C (.typeMismatch operation found)) : ErrorsIn C (intOperand operation v) := by
  cases v with
  | int n => exact .ok n
  | bool | prim | closure | nil | cons => exact .error (h _)

theorem boolOperand_errorsIn {operation : Operation} (v : Value)
    (h : ∀ found, C (.typeMismatch operation found)) : ErrorsIn C (boolOperand operation v) := by
  cases v with
  | bool b => exact .ok b
  | int | prim | closure | nil | cons => exact .error (h _)

theorem checkedInt_errorsIn {operation : Operation} (n : Int)
    (h : C (.integerOverflow operation)) : ErrorsIn C (checkedInt operation n) := by
  unfold checkedInt
  split
  · exact .ok _
  · exact .error h

theorem asTail_errorsIn (v : Value) (h : ∀ found, C (.tailNotAList found)) :
    ErrorsIn C (asTail v) := by
  unfold asTail
  split
  · exact .ok v
  · exact .error (h _)

theorem onInts_errorsIn {op : BinaryOp} (left right : Value)
    {apply : Int → Int → Except FaultCause Value}
    (h : ∀ found, C (.typeMismatch (.binary op) found)) (happly : ∀ a b, ErrorsIn C (apply a b)) :
    ErrorsIn C (onInts op left right apply) :=
  (intOperand_errorsIn left h).bind fun a => (intOperand_errorsIn right h).bind fun b => happly a b

end

/-- A unary operator fails at nodes with that operator. -/
theorem applyUnary_errorsIn (place : Place) (op : UnaryOp) (operand : Expr) (v : Value) :
    ErrorsIn (fun cause => cause.fits (.unary place op operand) = true) (applyUnary op v) := by
  have hkind : ∀ found, (FaultCause.typeMismatch (.unary op) found).fits
      (.unary place op operand) = true := fun _ => decide_eq_true rfl
  cases op with
  | pos => exact (intOperand_errorsIn v hkind).bind fun n => .ok _
  | neg =>
      exact (intOperand_errorsIn v hkind).bind fun n => checkedInt_errorsIn _ rfl
  | not => exact (boolOperand_errorsIn v hkind).bind fun b => .ok _

/-- So does a binary one, unless it compares its operands in full. -/
theorem strictBinary_errorsIn (place : Place) (op : BinaryOp) (left right : Expr) {a b : Value}
    {result : Except FaultCause Value} (h : strictBinary op a b = some result) :
    ErrorsIn (fun cause => cause.fits (.binary place op left right) = true) result := by
  have hkind : ∀ found, (FaultCause.typeMismatch (.binary op) found).fits
      (.binary place op left right) = true := fun _ => decide_eq_true rfl
  have hsize : (FaultCause.integerOverflow (.binary op)).fits
      (.binary place op left right) = true := decide_eq_true rfl
  cases op <;> simp only [strictBinary, Option.some.injEq, reduceCtorEq] at h <;> subst h
  case add | sub | mul =>
    exact onInts_errorsIn _ _ hkind fun m n => checkedInt_errorsIn _ hsize
  case div =>
    refine onInts_errorsIn _ _ hkind fun m n => ?_
    unfold divide
    split
    · exact .error rfl
    · exact checkedInt_errorsIn _ hsize
  case and | or =>
    exact (boolOperand_errorsIn _ hkind).bind fun m => (boolOperand_errorsIn _ hkind).bind fun n =>
      .ok _
  case lt | gt | le | ge => exact onInts_errorsIn _ _ hkind fun m n => .ok _

/-- And a primitive that looks at its argument only fails at calls. -/
theorem inspect_errorsIn (place : Place) (callee : Expr) (args : List Expr) {p : Prim} {v : Value}
    {result : Except FaultCause Value} (h : p.inspect v = some result) :
    ErrorsIn (fun cause => cause.fits (.call place callee args) = true) result := by
  cases p <;> cases v <;> simp only [Prim.inspect, Option.some.injEq, reduceCtorEq] at h <;>
    subst h <;> first | exact .ok _ | exact .error rfl

/-! ## The causes of a plan -/

/-- The plan itself fails only for causes with the property; comparing fails where a tail is no
list. -/
def Plan.Raises {α : Type} (C : FaultCause → Prop) : Plan α → Prop
  | done _ => True
  | fail cause => C cause
  | count _ next => next.Raises C
  | eval _ _ _ next => ∀ v, (next v).Raises C
  | force _ next => ∀ v, (next v).Raises C
  | delay _ _ _ _ next => ∀ x, (next x).Raises C
  | cell _ _ next => ∀ v, (next v).Raises C
  | closure _ _ next => ∀ v, (next v).Raises C
  | extend _ _ next => ∀ ρ, (next ρ).Raises C
  | compare _ next => (∀ found, C (.tailNotAList found)) ∧ ∀ b, (next b).Raises C

namespace Plan

variable {C : FaultCause → Prop} {α β : Type}

theorem raises_lift {result : Except FaultCause β} {next : β → Plan α} (h : ErrorsIn C result)
    (hnext : ∀ b, (next b).Raises C) : (Plan.lift result next).Raises C := by
  cases result with
  | ok b => exact hnext b
  | error cause => exact h cause rfl

theorem raises_delays (setting : Setting) (ρ : Env) (bindings : List (Name × Expr))
    {next : List (Name × Thunk) → Plan α} (hnext : ∀ bs, (next bs).Raises C) :
    (Plan.delays setting ρ bindings next).Raises C := by
  induction bindings generalizing next with
  | nil => exact hnext []
  | cons b bindings ih => exact fun x => ih fun bs => hnext _

theorem raises_binding (setting : Setting) (ρ outer : Env) (bindings : List (Name × Expr))
    (body : Expr) : (bindingPlan setting ρ outer bindings body).Raises C :=
  raises_delays setting ρ bindings fun _ _ _ => trivial

end Plan

theorem Thunk.asTail_errorsIn {C : FaultCause → Prop} (x : Thunk)
    (h : ∀ found, C (.tailNotAList found)) : ErrorsIn C x.asTail := by
  cases x with
  | ready v => exact (PolicyEval.asTail_errorsIn v h).bind fun v => .ok _
  | byName | byNeed => exact .ok _

theorem callPlan_raises (setting : Setting) (ρ : Env) (place : Place) (callee : Expr)
    (args : List Expr) (v : Value) :
    (callPlan setting ρ v args).Raises fun cause =>
      cause.fits (.call place callee args) = true := by
  cases v with
  | int | bool | nil | cons => exact rfl
  | closure tag lambda captured =>
      simp only [callPlan]
      split
      · exact Plan.raises_binding _ _ _ _ _
      · exact rfl
  | prim p =>
      simp only [callPlan, Plan.Raises]
      split
      · split
        · refine fun x y => Plan.raises_lift (y.asTail_errorsIn fun _ => rfl) fun c => ?_
          exact fun v => trivial
        · refine fun v => ?_
          cases hinspect : p.inspect v with
          | some result =>
              simp only [Prim.plan, hinspect]
              exact Plan.raises_lift (inspect_errorsIn _ _ _ hinspect) fun _ => trivial
          | none =>
              obtain ⟨tag, head, tail, rfl, -⟩ := Prim.inspect_eq_none hinspect
              simp only [Prim.plan, hinspect]
              split
              · exact fun _ => trivial
              · exact fun v => Plan.raises_lift (asTail_errorsIn v fun _ => rfl) fun _ => trivial
        · exact rfl
      · exact rfl

/-- The plan of an expression fails only for causes that fit its root. -/
theorem Expr.plan_raises (setting : Setting) (ρ : Env) (e : Expr) :
    (e.plan setting ρ).Raises fun cause => cause.fits e = true := by
  cases e with
  | int | bool | null | prim => exact trivial
  | map => exact fun _ => trivial
  | ident place name =>
      simp only [Expr.plan]
      cases ρ.lookup name with
      | none => exact decide_eq_true rfl
      | some x => exact fun _ => trivial
  | unary place op operand =>
      exact fun v => Plan.raises_lift (applyUnary_errorsIn place op operand v) fun _ => trivial
  | binary place op left right =>
      have hkind : ∀ found, (FaultCause.typeMismatch (.binary op) found).fits
          (.binary place op left right) = true := fun _ => decide_eq_true rfl
      intro a
      cases op.decisive? with
      | none =>
          intro b
          simp only [BinaryOp.plan]
          cases hresult : strictBinary op a b with
          | some result =>
              exact Plan.raises_lift (strictBinary_errorsIn place op left right hresult)
                fun _ => trivial
          | none =>
              -- Only the two equalities compare, and only comparing forces the tails of lists.
              have hop : op = .eq ∨ op = .ne := by
                cases op <;> simp [strictBinary] at hresult ⊢
              exact ⟨fun _ => by simp [FaultCause.fits, hop], fun _ => trivial⟩
      | some decisive =>
          refine Plan.raises_lift (boolOperand_errorsIn a hkind) fun x => ?_
          split
          · exact trivial
          · exact fun b => Plan.raises_lift (boolOperand_errorsIn b hkind) fun _ => trivial
  | call place callee args => exact fun v => callPlan_raises setting ρ place callee args v
  | cond place test yes no =>
      exact fun v => Plan.raises_lift (boolOperand_errorsIn v fun _ => rfl) fun _ _ => trivial
  | letIn place defs body => exact Plan.raises_binding _ _ _ _ _

/-- Comparing fails where a tail is no list. -/
theorem stepPlan_raises (same : Comparison → Bool) (todo : List Comparison) :
    (stepPlan same todo).Raises FaultCause.IsTail := by
  have htail : ∀ found, FaultCause.IsTail (.tailNotAList found) := fun found => ⟨found, rfl⟩
  have hmeeting : ∀ (m : Meeting) (rest : List Comparison),
      (m.plan rest).Raises FaultCause.IsTail := by
    intro m rest
    cases m with
    | unequal => exact trivial
    | equal | envs => exact ⟨htail, fun _ => trivial⟩
    | parts => exact fun _ _ => ⟨htail, fun _ => trivial⟩
  cases todo with
  | nil => exact trivial
  | cons c rest =>
      simp only [stepPlan]
      split
      · exact ⟨htail, fun _ => trivial⟩
      · cases c with
        | values | envs => exact hmeeting _ rest
        | tails =>
            exact fun x => Plan.raises_lift (asTail_errorsIn x htail) fun x y =>
              Plan.raises_lift (asTail_errorsIn y htail) fun y => ⟨htail, fun _ => trivial⟩

section

variable {item : Value → (String → Plan String) → Plan String} {next : String → Plan String}

theorem spinePlan_raises
    (hitem : ∀ v next, (∀ text, (next text).Raises FaultCause.IsTail) →
      (item v next).Raises FaultCause.IsTail)
    (hnext : ∀ text, (next text).Raises FaultCause.IsTail) (left : Nat) (isFirst : Bool)
    (out : String) (v : Value) :
    (spinePlan item isFirst out left v next).Raises FaultCause.IsTail := by
  induction left generalizing isFirst out v with
  | zero => cases v <;> exact hnext _
  | succ left ih =>
      cases v with
      | int | bool | prim | closure | nil => exact hnext _
      | cons tag head tail =>
          refine fun x => hitem x _ fun element rest => ?_
          exact Plan.raises_lift (asTail_errorsIn rest fun found => ⟨found, rfl⟩)
            fun rest => ih false _ rest

/-- So does rendering. -/
theorem renderPlan_raises (printDepth room : Nat) (v : Value)
    (hnext : ∀ text, (next text).Raises FaultCause.IsTail) :
    (renderPlan printDepth room v next).Raises FaultCause.IsTail := by
  induction room generalizing v next with
  | zero =>
      cases v with
      | bool b => cases b <;> exact hnext _
      | int | prim | closure | nil | cons => exact hnext _
  | succ room ih =>
      cases v with
      | bool b => cases b <;> exact hnext _
      | int | prim | closure => exact hnext _
      | nil | cons => exact spinePlan_raises (fun v next h => ih v h) hnext _ _ _ _

end

/-! ## The faults of a run -/

/-- What a meeting leaves to be compared belongs to the realm. -/
def Meeting.Belongs (R : Realm) : Meeting → Prop
  | .equal | .unequal => True
  | .envs left right => left.Belongs R ∧ right.Belongs R
  | .parts left right next => left.Belongs R ∧ right.Belongs R ∧ next.Belongs R

theorem Value.meet_belongs {R : Realm} {a b : Value} (ha : a.Belongs R) (hb : b.Belongs R) :
    (a.meet b).Belongs R := by
  unfold Value.meet
  split
  · split <;> trivial
  · split <;> trivial
  · split <;> trivial
  · simp only [Value.Belongs] at ha hb
    split
    · exact ⟨ha.2, hb.2⟩
    · trivial
  · trivial
  · simp only [Value.Belongs] at ha hb
    exact ⟨ha.1, hb.1, ha.2, hb.2⟩
  · trivial

theorem Env.meet_belongs {R : Realm} {ρ ρ' : Env} (hρ : ρ.Belongs R) (hρ' : ρ'.Belongs R) :
    (ρ.meet ρ').Belongs R := by
  unfold Env.meet
  split
  · trivial
  · simp only [Env.Belongs] at hρ hρ'
    split
    · exact ⟨hρ.2.1, hρ'.2.1, hρ.2.2, hρ'.2.2⟩
    · trivial
  · trivial

namespace Realm

/-- What a meeting in the realm leaves to be compared stays in it. -/
theorem meeting_abides {R : Realm} (hcompares : R.Compares) {m : Meeting} (hm : m.Belongs R)
    {rest : List Comparison} (hrest : ∀ c ∈ rest, c.Belongs R) :
    (m.plan rest).Abides R fun _ => True := by
  cases m with
  | unequal => exact .done trivial
  | equal => exact .compare hcompares hrest fun _ => .done trivial
  | envs left right =>
      exact .compare hcompares (List.forall_mem_cons.2 ⟨hm, hrest⟩) fun _ => .done trivial
  | parts left right next =>
      refine .force hm.1 fun x hx => .force hm.2.1 fun y hy => ?_
      refine .compare hcompares ?_ fun _ => .done trivial
      exact List.forall_mem_cons.2 ⟨⟨hx, hy⟩, List.forall_mem_cons.2 ⟨hm.2.2, hrest⟩⟩

/-- Comparing data of the realm asks for nothing outside of it. -/
theorem step_abides {R : Realm} (hcompares : R.Compares) (same : Comparison → Bool)
    {todo : List Comparison} (htodo : ∀ c ∈ todo, c.Belongs R) :
    (stepPlan same todo).Abides R fun _ => True := by
  cases todo with
  | nil => exact .done trivial
  | cons c rest =>
      obtain ⟨hc, hrest⟩ := List.forall_mem_cons.1 htodo
      simp only [stepPlan]
      split
      · exact .compare hcompares hrest fun _ => .done trivial
      · cases c with
        | values left right => exact meeting_abides hcompares (Value.meet_belongs hc.1 hc.2) hrest
        | envs left right => exact meeting_abides hcompares (Env.meet_belongs hc.1 hc.2) hrest
        | tails left right =>
            refine .force hc.1.1 fun x hx => .tail fun _ => ?_
            refine .force hc.2.1 fun y hy => .tail fun _ => ?_
            refine .compare hcompares ?_ fun _ => .done trivial
            exact List.forall_mem_cons.2 ⟨⟨hx, hy⟩, hrest⟩

/-- The fault has the span of a node of the realm that fits it. -/
def Locates (R : Realm) (f : Fault) : Prop :=
  ∃ node, R.node node ∧ f.span = some node.span ∧ f.cause.fits node = true

/-- A limit forbids to go deeper than the given level. -/
def Forbids (R : Realm) (depth : Nat) (cause : FaultCause) : Prop :=
  ∃ n, cause = .recursionLimit n ∧ R.setting.maxDepth = some n ∧ n ≤ depth

/-- Evaluation goes on in the realm on the same level with a result that has the property `post`, or
stops for lack of fuel, or fails with a fault that has its span already or is of a kind that `C` or
the limit says. -/
def Blames (R : Realm) (depth : Nat) (C : FaultCause → Prop) {α : Type} (post : α → Prop) :
    EStateM.Result Stop State α → Prop
  | .ok a s => R.At depth s ∧ post a
  | .error .outOfFuel _ => True
  | .error (.fault f) _ => R.Locates f ∨ f.span = none ∧ (C f.cause ∨ R.Forbids depth f.cause)

variable {R : Realm} {depth : Nat} {C : FaultCause → Prop} {α β : Type} {post : α → Prop}
  {s : State}

theorem Blames.mono {C' : FaultCause → Prop} {outcome : EStateM.Result Stop State α}
    (h : R.Blames depth C post outcome) (himp : ∀ cause, C cause → C' cause) :
    R.Blames depth C' post outcome := by
  cases outcome with
  | ok a s => exact h
  | error stop s =>
      cases stop with
      | outOfFuel => trivial
      | fault f =>
          rcases h with h | ⟨hspan, hcause | hforbids⟩
          · exact .inl h
          · exact .inr ⟨hspan, .inl (himp _ hcause)⟩
          · exact .inr ⟨hspan, .inr hforbids⟩

theorem Blames.bind {post' : β → Prop} {first : Eval α} {next : α → Eval β}
    (hfirst : R.Blames depth C post (first s))
    (hnext : ∀ a s', R.At depth s' → post a → R.Blames depth C post' (next a s')) :
    R.Blames depth C post' ((first >>= next) s) := by
  rw [Eval.bind_apply]
  cases hrun : first s with
  | ok a s' =>
      rw [hrun] at hfirst
      exact hnext a s' hfirst.1 hfirst.2
  | error stop s' =>
      rw [hrun] at hfirst
      cases stop <;> exact hfirst

/-- As a fault leaves an expression that it fits, it gets the span of that expression. -/
theorem within_blames {e : Expr} (he : R.node e) (hs : R.At depth s) {body : Eval α}
    (h : ∀ s, R.At (depth + 1) s →
      R.Blames (depth + 1) (fun cause => cause.fits e = true) post (body s)) :
    R.Blames depth (fun _ => False) post (Eval.within R.setting.maxDepth e.span body s) := by
  unfold Eval.within
  cases henter : s.depth.enter R.setting.maxDepth with
  | error n =>
      obtain ⟨hlimit, hreached⟩ := (Depth.enter_eq_error_iff _ _ n).1 henter
      rw [hs.depth] at hreached
      exact .inr ⟨rfl, .inr ⟨n, rfl, hlimit, hreached⟩⟩
  | ok d =>
      obtain ⟨-, rfl⟩ := Depth.enter_eq_ok.1 henter
      have hbody := h { s with depth := s.depth.deeper } ⟨hs.store, congrArg (· + 1) hs.depth⟩
      dsimp only
      cases hrun : body { s with depth := s.depth.deeper } with
      | ok a s' =>
          rw [hrun] at hbody
          refine ⟨⟨hbody.1.store, ?_⟩, hbody.2⟩
          simp only [Depth.leave, hbody.1.depth, Nat.add_sub_cancel]
      | error stop s' =>
          rw [hrun] at hbody
          cases stop with
          | outOfFuel => trivial
          | fault f =>
              obtain ⟨cause, span⟩ := f
              refine .inl ?_
              -- The fault has the span of a node inside, or it gets the span of this expression.
              rcases hbody with ⟨node, hnode, rfl, hfits⟩ | ⟨rfl, hfits | ⟨n, rfl, -⟩⟩
              · exact ⟨node, hnode, rfl, hfits⟩
              · exact ⟨e, he, rfl, hfits⟩
              · exact ⟨e, he, rfl, rfl⟩

/-- On the level, evaluating an expression of the realm fails with a span or because of the
limit. -/
def EvalBlames (R : Realm) (depth : Nat) (ev : Evaluator) : Prop :=
  ∀ s, R.At depth s → ∀ ρ e, ρ.Belongs R → R.HasExpr e →
    R.Blames depth (fun _ => False) (Value.Belongs R) (ev R.setting ρ e s)

section

variable {ev : Evaluator} (heval : R.EvalBlames depth ev)
include heval

theorem suspension_blames (hs : R.At depth s) {q : Suspension} (hq : q.Belongs R) :
    R.Blames depth C (Value.Belongs R) (q.run ev s) := by
  obtain ⟨setting, ρ, e⟩ := q
  simp only [Suspension.Belongs] at hq
  obtain ⟨rfl, he, hρ⟩ := hq
  exact (heval _ (hs.of_cells rfl s.counters.countForced) ρ e hρ he).mono fun _ h => h.elim

theorem force_blames (hs : R.At depth s) {x : Thunk} (hx : x.Belongs R) :
    R.Blames depth C (Value.Belongs R) (force ev x s) := by
  cases x with
  | ready v =>
      simp only [Thunk.Belongs] at hx
      exact ⟨hs, hx⟩
  | byName q =>
      simp only [Thunk.Belongs] at hx
      exact suspension_blames heval hs hx.2
  | byNeed address q =>
      simp only [Thunk.Belongs] at hx
      cases hkept : s.store.kept? address with
      | some v =>
          rw [Eval.force_of_kept hkept]
          exact ⟨hs, hs.store.kept address v hx.2.1 hkept⟩
      | none =>
          rw [Eval.force_of_pending hkept]
          refine (suspension_blames heval hs hx.2.2).bind fun v s' hs' hv => ?_
          have hkeep := keep_continues hs' hv hx.2.1
          rw [Eval.keep_apply] at hkeep ⊢
          cases hkept' : s'.store.kept? address with
          | some kept =>
              rw [hkept'] at hkeep
              exact hkeep
          | none =>
              rw [hkept'] at hkeep
              exact hkeep

theorem delay_blames (hs : R.At depth s) {d : Discipline} (hd : R.Delays d) {ρ : Env}
    (hρ : ρ.Belongs R) {e : Expr} (he : R.HasExpr e) :
    R.Blames depth C (Thunk.Belongs R) (delay ev d R.setting ρ e s) := by
  cases d with
  | value =>
      refine ((heval s hs ρ e hρ he).mono fun _ h => h.elim).bind fun v s' hs' hv => ⟨hs', ?_⟩
      simpa only [Thunk.Belongs] using hv
  | name =>
      refine ⟨hs, ?_⟩
      simp only [Thunk.Belongs, Suspension.Belongs]
      exact ⟨hd, trivial, he, hρ⟩
  | need =>
      refine ⟨⟨hs.store.allocate, hs.depth⟩, ?_⟩
      simp only [Thunk.Belongs, Suspension.Belongs]
      exact ⟨hd, hs.store.base_le, trivial, he, hρ⟩

/-- A plan in the realm fails with its own causes, or with a fault that has its span already. -/
theorem run_blames {loop : Nat}
    (hcompare : R.Compares → ∀ s, R.At depth s → ∀ todo : List Comparison,
      (∀ c ∈ todo, c.Belongs R) →
        R.Blames depth FaultCause.IsTail (fun _ => True) (compareAll ev loop todo s))
    {p : Plan α} (hp : p.Abides R post) (hraises : p.Raises C) (hs : R.At depth s) :
    R.Blames depth C post (p.run ev loop s) := by
  induction hp generalizing s with
  | done h => exact ⟨hs, h⟩
  | fail => exact .inr ⟨rfl, .inl hraises⟩
  | @count step p _ _ ih => exact ih hraises (hs.of_cells rfl (step s.counters))
  | eval henv hexpr _ ih =>
      refine ((heval s hs _ _ henv hexpr).mono fun _ h => h.elim).bind fun v s' hs' hv => ?_
      exact ih v hv (hraises v) hs'
  | force hthunk _ ih =>
      exact (force_blames heval hs hthunk).bind fun v s' hs' hv => ih v hv (hraises v) hs'
  | delay hdelays henv hexpr _ ih =>
      exact (delay_blames heval hs hdelays henv hexpr).bind fun x s' hs' hx =>
        ih x hx (hraises x) hs'
  | @cell x y next hhead htail hlist _ ih =>
      have hv : (Value.cons s.store.nextTag x y).Belongs R := by
        simpa only [Value.Belongs] using ⟨hhead, htail, hlist⟩
      have htag : s.store.freshTag.2.cells = s.store.cells := rfl
      exact ih _ hv (hraises _) (hs.of_cells htag s.counters)
  | @closure lambda ρ next hexpr henv _ ih =>
      have hv : (Value.closure s.store.nextTag lambda ρ).Belongs R := by
        simpa only [Value.Belongs] using ⟨hexpr, henv⟩
      have htag : s.store.freshTag.2.cells = s.store.cells := rfl
      exact ih _ hv (hraises _) (hs.of_cells htag s.counters)
  | @extend ρ bindings next henv hbindings _ ih =>
      refine ih _ (s.store.extend_belongs henv hbindings) (hraises _) ?_
      exact hs.of_cells (s.store.extend_cells ρ bindings) s.counters
  -- By itself comparing fails only at tails, and the plan allows for those causes.
  | compare hcompares htodo _ ih =>
      refine ((hcompare hcompares s hs _ htodo).mono ?_).bind fun b s' hs' _ =>
        ih b (hraises.2 b) hs'
      rintro _ ⟨found, rfl⟩
      exact hraises.1 found

theorem compare_blames (loop : Nat) (hcompares : R.Compares) (hs : R.At depth s)
    {todo : List Comparison} (htodo : ∀ c ∈ todo, c.Belongs R) :
    R.Blames depth FaultCause.IsTail (fun _ => True) (compareAll ev loop todo s) := by
  induction loop generalizing s todo with
  | zero => trivial
  | succ loop ih =>
      rw [compareAll_succ]
      exact run_blames heval (fun _ s hs todo htodo => ih hs htodo)
        (step_abides hcompares _ htodo) (stepPlan_raises _ todo) hs

end

/-- Every fault of an evaluation has the span of a node that fits it, unless the limit forbids to
enter the expression itself. -/
theorem eval_blames (fuel depth : Nat) : R.EvalBlames depth (eval fuel) := by
  induction fuel generalizing depth with
  | zero => exact fun _ _ _ _ _ _ => trivial
  | succ fuel ih =>
      intro s hs ρ e hρ he
      rw [eval_succ]
      refine within_blames he.node hs fun s' hs' => ?_
      exact run_blames (ih (depth + 1))
        (fun h s hs todo htodo => compare_blames (ih (depth + 1)) fuel h hs htodo)
        ((plan_abides hρ he).count .expression) (e.plan_raises R.setting ρ) hs'

/-- The same of rendering a value on the outermost level, where a tail that is no list has no span
either. -/
theorem render_blames (fuel printDepth : Nat) (hs : R.At 0 s) {v : Value} (hv : v.Belongs R) :
    R.Blames 0 FaultCause.IsTail (fun _ => True) (renderValue (eval fuel) printDepth v s) := by
  have habides : (renderPlan printDepth printDepth v .done).Abides R fun _ => True :=
    render_abides printDepth printDepth hv fun _ => .done trivial
  have hraises : (renderPlan printDepth printDepth v .done).Raises FaultCause.IsTail :=
    renderPlan_raises printDepth printDepth v fun _ => trivial
  have hrender := run_blames (eval_blames fuel 0)
    (fun h s hs todo htodo => compare_blames (eval_blames fuel 0) fuel h hs htodo)
    habides hraises hs
  rw [run_renderPlan] at hrender
  simpa only [Plan.run, bind_pure, renderValue] using hrender

end Realm

/-! ## Programs -/

theorem Eval.exists_of_report_error {α : Type} {store : Store} {body : Eval α} {stop : Stop}
    (h : (body.report store).result = .error stop) :
    ∃ s, body (State.start store) = .error stop s := by
  unfold Eval.report at h
  cases hbody : body (State.start store) with
  | ok a s =>
      rw [hbody] at h
      cases h
  | error stop' s =>
      rw [hbody] at h
      cases h
      exact ⟨s, rfl⟩

/-- A fault of a program has the span of a node of the program whose form fits it.  It has no span
only if the limit is 0, or if the program has a value and rendering it meets a tail that is no
list. -/
theorem fault_blames_node (fuel : Nat) (config : Config) (root : Expr) (f : Fault)
    (h : ((runProgram fuel config root).report .empty).result = .error (.fault f)) :
    (∃ node ∈ root.postorder, f.span = some node.span ∧ f.cause.fits node = true) ∨
      f.span = none ∧
        (f.cause = .recursionLimit 0 ∧ config.setting.maxDepth = some 0 ∨
          f.cause.IsTail ∧
            ∃ v, ((evalProgram fuel config.setting root).report .empty).result = .ok v) := by
  let R := Realm.ofProgram config.setting (· ∈ root.postorder) .empty
  have hforbids : ∀ cause, R.Forbids 0 cause →
      cause = .recursionLimit 0 ∧ config.setting.maxDepth = some 0 := by
    rintro _ ⟨n, rfl, hlimit, hn⟩
    obtain rfl := Nat.le_zero.1 hn
    exact ⟨rfl, hlimit⟩
  have hstart : R.At 0 (State.start .empty) := ⟨Store.belongs_start rfl, rfl⟩
  have hroot : R.HasExpr root := fun _ hd => hd
  have heval : R.Blames 0 (fun _ => False) (Value.Belongs R)
      (evalProgram fuel config.setting root (State.start .empty)) :=
    R.eval_blames fuel 0 _ hstart .empty root (by simp only [Env.Belongs]) hroot
  obtain ⟨s', hrun⟩ := Eval.exists_of_report_error h
  rw [runProgram, Eval.bind_apply] at hrun
  cases hvalue : evalProgram fuel config.setting root (State.start .empty) with
  | error stop s₁ =>
      rw [hvalue] at hrun heval
      cases hrun
      rcases heval with hnode | ⟨hspan, hnone | hlimit⟩
      · exact .inl hnode
      · exact hnone.elim
      · exact .inr ⟨hspan, .inl (hforbids _ hlimit)⟩
  | ok v s₁ =>
      rw [hvalue] at hrun heval
      have hresult := Eval.report_result_eq_ok.2 ⟨s₁, hvalue⟩
      have hrender := R.render_blames fuel config.printDepth heval.1 heval.2
      rw [show renderValue (eval fuel) config.printDepth v s₁ = _ from hrun] at hrender
      rcases hrender with hnode | ⟨hspan, htail | hlimit⟩
      · exact .inl hnode
      · exact .inr ⟨hspan, .inr ⟨htail, v, hresult⟩⟩
      · exact .inr ⟨hspan, .inl (hforbids _ hlimit)⟩

/-- In `let x := 7 / 0; in cons(x, null)` the division is delayed twice and fails while the list is
rendered; the fault points at the division, not at `x`. -/
theorem fault_blames_node_delayed :
    let x : Binder := ⟨⟨1, "x"⟩, ⟨4, 5⟩⟩
    let division : Expr := .binary ⟨2, ⟨9, 14⟩⟩ .div (.int ⟨0, ⟨9, 10⟩⟩ 7) (.int ⟨1, ⟨13, 14⟩⟩ 0)
    let list : Expr := .call ⟨6, ⟨19, 32⟩⟩ (.prim ⟨3, ⟨19, 23⟩⟩ .cons)
      [.ident ⟨4, ⟨24, 25⟩⟩ x.name, .null ⟨5, ⟨27, 31⟩⟩]
    let program : Expr := .letIn ⟨7, ⟨0, 32⟩⟩ [(x, division)] list
    let f : Fault := ⟨.divisionByZero, some ⟨9, 14⟩⟩
    let config : Config := ⟨⟨⟨.name, .need⟩, some 9⟩, 10⟩
    ((runProgram 9 config program).report .empty).result = .error (.fault f) ∧
      ((∃ node ∈ program.postorder, f.span = some node.span ∧ f.cause.fits node = true) ∨
        f.span = none ∧
          (f.cause = .recursionLimit 0 ∧ config.setting.maxDepth = some 0 ∨
            f.cause.IsTail ∧
              ∃ v, ((evalProgram 9 config.setting program).report .empty).result = .ok v)) := by
  intro x division list program f config
  have hfails : ((runProgram 9 config program).report .empty).result = .error (.fault f) := by
    decide +kernel
  exact ⟨hfails, fault_blames_node 9 config program f hfails⟩

end PolicyEval
