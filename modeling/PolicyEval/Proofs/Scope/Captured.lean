import PolicyEval.Proofs.Eval.Cells
import PolicyEval.Proofs.Eval.Forms
import PolicyEval.Proofs.Eval.Invariant
import PolicyEval.Proofs.Eval.Meeting
import PolicyEval.Proofs.Eval.Operands
import PolicyEval.Render
import PolicyEval.Scope.Lexical

/-!
# Captured environments

An expression that is not evaluated where it stands is kept together with an environment: in a
closure, in a thunk, in the parts of a list cell.  It is evaluated later, from wherever the closure
is called or the thunk is forced.  What makes this safe is a property of every such pair on its own:
the environment binds all variables of the expression.

* `Value.WellScoped`, `Thunk.WellScoped`, `Env.WellScoped` — every captured environment binds the
  variables of the expression it was captured with, at any depth.
* `evalForm_keeps` — every form of expression hands the property on.
* `eval_keeps` — an evaluation in a well-scoped environment yields well-scoped values and never
  stops at a variable without a binding.
-/

namespace PolicyEval

/-! ## Well-scoped values -/

/-- The expression passes the lexical check within the names of the environment. -/
def Env.Binds (env : Env) (e : Expr) : Prop := checkIn env.names e = .ok ()

mutual
/-- Every environment captured in the value binds the variables of its expression. -/
def Value.WellScoped : Value → Prop
  | .int _ | .bool _ | .prim _ | .nil => True
  | .closure _ lambda env =>
    checkIn (lambda.params.map Binder.name ++ env.names) lambda.body = .ok () ∧ env.WellScoped
  | .cons _ head tail => head.WellScoped ∧ tail.WellScoped

/-- Every environment captured in the thunk binds the variables of its expression. -/
def Thunk.WellScoped : Thunk → Prop
  | .ready v => v.WellScoped
  | .byName s => s.WellScoped
  | .byNeed _ s => s.WellScoped

/-- The environment of the suspension binds the variables of its expression, and so does every
environment captured in it. -/
def Suspension.WellScoped : Suspension → Prop
  | .mk _ env e => env.Binds e ∧ env.WellScoped

/-- Every environment captured in a binding binds the variables of its expression. -/
def Env.WellScoped : Env → Prop
  | .empty => True
  | .frame _ _ thunk rest => thunk.WellScoped ∧ rest.WellScoped
end

/-- All results that the store keeps are well-scoped. -/
def Store.WellScoped (store : Store) : Prop :=
  ∀ address v, store.kept? address = some v → v.WellScoped

/-- The computation did not stop at a variable without a binding. -/
def Stop.IsBound : Stop → Prop
  | .fault f => f.cause.isUnbound = false
  | .outOfFuel => True

theorem Stop.IsBound.leaving {stop : Stop} (h : stop.IsBound) (span : Span) :
    (stop.leaving span).IsBound := by
  cases stop with
  | fault f => exact h
  | outOfFuel => exact h

theorem Value.IsScalar.wellScoped {v : Value} (h : v.IsScalar) : v.WellScoped := by
  cases v with
  | int | bool => simp only [Value.WellScoped]
  | prim | closure | nil | cons => exact h.elim

/-! ## Environments and stores -/

/-- A variable that passes the check has a well-scoped binding. -/
theorem Env.WellScoped.lookup {name : Name} : {env : Env} → env.WellScoped →
    inScope env.names name = true → ∃ thunk, env.lookup name = some thunk ∧ thunk.WellScoped
  | .empty, _, h => by simp [Env.names, inScope] at h
  | .frame tag bound thunk rest, henv, h => by
      simp only [Env.WellScoped] at henv
      by_cases hsame : bound.same name = true
      · exact ⟨thunk, by simp only [Env.lookup, hsame, if_true], henv.1⟩
      · have hrest : inScope rest.names name = true := by
          simpa [Env.names, inScope, hsame] using h
        obtain ⟨found, hfound, hscoped⟩ := Env.WellScoped.lookup henv.2 hrest
        exact ⟨found, by rwa [Env.lookup, if_neg hsame], hscoped⟩

/-- The binding that a name has, by its text, is well-scoped. -/
theorem Env.WellScoped.lookupText {text : String} {thunk : Thunk} : {env : Env} → env.WellScoped →
    env.lookupText text = some thunk → thunk.WellScoped
  | .empty, _, h => by simp [Env.lookupText] at h
  | .frame tag bound found rest, henv, h => by
      simp only [Env.WellScoped] at henv
      simp only [Env.lookupText] at h
      split at h
      · cases h
        exact henv.1
      · exact Env.WellScoped.lookupText henv.2 h

theorem Store.extend_wellScoped {store : Store} {env : Env} {bindings : List (Name × Thunk)}
    (henv : env.WellScoped) (hbindings : ∀ b ∈ bindings, b.2.WellScoped) :
    (store.extend env bindings).1.WellScoped := by
  induction bindings with
  | nil => exact henv
  | cons b bindings ih =>
      simp only [Store.extend, Env.WellScoped]
      exact ⟨hbindings b (by simp), ih fun b' hb' => hbindings b' (by simp [hb'])⟩

theorem Store.extend_names (store : Store) (env : Env) (bindings : List (Name × Thunk)) :
    (store.extend env bindings).1.names = bindings.map Prod.fst ++ env.names := by
  induction bindings with
  | nil => rfl
  | cons b bindings ih => simp only [Store.extend, Env.names, ih, List.map_cons, List.cons_append]

/-- The property depends on the cells of a store only. -/
theorem Store.WellScoped.of_cells {store store' : Store} (h : store.WellScoped)
    (hcells : store'.cells = store.cells) : store'.WellScoped := by
  intro address v hkept
  rw [Store.kept?, hcells] at hkept
  exact h address v hkept

theorem Store.WellScoped.allocate {store : Store} (h : store.WellScoped) :
    store.allocate.2.WellScoped := by
  intro address v hkept
  rw [Store.kept?_allocate] at hkept
  exact h address v hkept

theorem Store.WellScoped.keep {store : Store} (h : store.WellScoped) {v : Value}
    (hv : v.WellScoped) (address : Nat) : (store.keep address v).WellScoped := by
  intro address' v' hkept
  simp only [Store.kept?, Store.keep, Array.getElem?_setIfInBounds] at hkept
  split at hkept
  · split at hkept
    · cases hkept
      exact hv
    · simp at hkept
  · exact h address' v' hkept

theorem Store.WellScoped.empty : Store.empty.WellScoped := by
  intro address v hkept
  simp [Store.kept?, Store.empty] at hkept

/-! ## What the check says of the parts of an expression -/

theorem Except.andThen_eq_ok {ε : Type} {first : Except ε Unit} {next : Unit → Except ε Unit} :
    (first >>= next) = .ok () ↔ first = .ok () ∧ next () = .ok () := by
  cases first with
  | error e => simp [bind, Except.bind]
  | ok u => simp [bind, Except.bind]

theorem checkListIn_eq_ok {scope : List Name} {es : List Expr} :
    checkListIn scope es = .ok () ↔ ∀ e ∈ es, checkIn scope e = .ok () := by
  induction es with
  | nil => simp [checkListIn]
  | cons e es ih => simp only [checkListIn, Except.andThen_eq_ok, ih, List.forall_mem_cons]

theorem checkDefsIn_eq_ok {scope : List Name} {ds : List (Binder × Expr)} :
    checkDefsIn scope ds = .ok () ↔ ∀ d ∈ ds, checkIn scope d.2 = .ok () := by
  induction ds with
  | nil => simp [checkDefsIn]
  | cons d ds ih => simp only [checkDefsIn, Except.andThen_eq_ok, ih, List.forall_mem_cons]

namespace Env.Binds

variable {env : Env} {place : Place}

theorem ident {name : Name} (h : env.Binds (.ident place name)) :
    inScope env.names name = true := by
  have hbound : checkBound env.names place name = .ok () := h
  rw [checkBound] at hbound
  split at hbound
  · assumption
  · cases hbound

theorem unary {op : UnaryOp} {operand : Expr} (h : env.Binds (.unary place op operand)) :
    env.Binds operand := h

theorem binary {op : BinaryOp} {left right : Expr} (h : env.Binds (.binary place op left right)) :
    env.Binds left ∧ env.Binds right :=
  Except.andThen_eq_ok.1 h

theorem call {callee : Expr} {args : List Expr} (h : env.Binds (.call place callee args)) :
    env.Binds callee ∧ ∀ arg ∈ args, env.Binds arg := by
  obtain ⟨hcallee, hargs⟩ := Except.andThen_eq_ok.1 h
  exact ⟨hcallee, checkListIn_eq_ok.1 hargs⟩

theorem map {params : List Binder} {body : Expr} (h : env.Binds (.map place params body)) :
    checkIn (params.map Binder.name ++ env.names) body = .ok () :=
  (Except.andThen_eq_ok.1 h).2

theorem cond {test yes no : Expr} (h : env.Binds (.cond place test yes no)) :
    env.Binds test ∧ env.Binds yes ∧ env.Binds no := by
  obtain ⟨htest, hbranches⟩ := Except.andThen_eq_ok.1 h
  exact ⟨htest, Except.andThen_eq_ok.1 hbranches⟩

theorem letIn {defs : List (Binder × Expr)} {body : Expr} (h : env.Binds (.letIn place defs body)) :
    (∀ d ∈ defs, env.Binds d.2) ∧
      checkIn (defs.map (fun d => d.1.name) ++ env.names) body = .ok () := by
  obtain ⟨-, hparts⟩ := Except.andThen_eq_ok.1 h
  obtain ⟨hdefs, hbody⟩ := Except.andThen_eq_ok.1 hparts
  exact ⟨checkDefsIn_eq_ok.1 hdefs, hbody⟩

end Env.Binds

/-! ## Computations that keep scopes -/

/-- The computation leaves a well-scoped store well-scoped and never stops at a variable without a
binding. -/
abbrev Eval.KeepsScopes {α : Type} (body : Eval α) (post : α → Prop) : Prop :=
  Eval.Keeps Store.WellScoped Stop.IsBound body post

/-- The evaluator yields well-scoped values of expressions whose variables are bound. -/
def Evaluator.KeepsScopes (ev : Evaluator) : Prop :=
  ∀ setting env e, env.WellScoped → env.Binds e →
    (ev setting env e).KeepsScopes Value.WellScoped

theorem Eval.KeepsScopes.liftPlain {result : Except FaultCause Value} (h : IsPlain result) :
    (Eval.lift result).KeepsScopes Value.WellScoped := by
  refine Eval.Keeps.lift ?_ ?_
  · rintro v rfl
    exact Value.IsScalar.wellScoped h
  · rintro cause rfl
    exact h

theorem Eval.KeepsScopes.liftBool {operation : Operation} (v : Value) :
    (Eval.lift (boolOperand operation v)).KeepsScopes (fun _ => True) :=
  Eval.Keeps.lift (fun _ _ => trivial) (fun _ h => boolOperand_error h)

theorem Eval.KeepsScopes.freshTag : Eval.freshTag.KeepsScopes (fun _ => True) :=
  Eval.Keeps.freshTag fun _ h => h.of_cells rfl

theorem asTail_keeps {v : Value} (hv : v.WellScoped) :
    (Eval.lift (asTail v)).KeepsScopes Value.WellScoped := by
  unfold asTail
  split
  · exact Eval.Keeps.pure hv
  · exact Eval.Keeps.fail rfl

theorem buildCell_keeps {head tail : Thunk} (hhead : head.WellScoped) (htail : tail.WellScoped) :
    (buildCell head tail).KeepsScopes Value.WellScoped := by
  refine Eval.Keeps.bind Eval.Keeps.count fun _ _ => ?_
  refine Eval.Keeps.bind Eval.KeepsScopes.freshTag fun tag _ => ?_
  exact Eval.Keeps.pure (by simpa only [Value.WellScoped] using ⟨hhead, htail⟩)

section Forms

variable {ev : Evaluator} (hev : ev.KeepsScopes)
include hev

theorem delay_keeps {d : Discipline} {setting : Setting} {env : Env} {e : Expr}
    (henv : env.WellScoped) (he : env.Binds e) :
    (delay ev d setting env e).KeepsScopes Thunk.WellScoped := by
  cases d with
  | value =>
      refine Eval.Keeps.bind (hev setting env e henv he) ?_
      intro v hv
      exact Eval.Keeps.pure (by simpa only [Thunk.WellScoped] using hv)
  | name =>
      refine Eval.Keeps.pure ?_
      simpa only [Thunk.WellScoped, Suspension.WellScoped] using ⟨he, henv⟩
  | need =>
      have hallocate : Eval.allocate.KeepsScopes (fun _ => True) :=
        Eval.Keeps.modifyGet fun s hs => ⟨Store.WellScoped.allocate hs, trivial⟩
      refine Eval.Keeps.bind hallocate ?_
      intro address _
      refine Eval.Keeps.pure ?_
      simpa only [Thunk.WellScoped, Suspension.WellScoped] using ⟨he, henv⟩

theorem force_keeps {thunk : Thunk} (h : thunk.WellScoped) :
    (force ev thunk).KeepsScopes Value.WellScoped := by
  cases thunk with
  | ready v => exact Eval.Keeps.pure (by simpa only [Thunk.WellScoped] using h)
  | byName s =>
      obtain ⟨setting, env, e⟩ := s
      simp only [Thunk.WellScoped, Suspension.WellScoped] at h
      exact Eval.Keeps.bind Eval.Keeps.count fun _ _ => hev setting env e h.2 h.1
  | byNeed address s =>
      obtain ⟨setting, env, e⟩ := s
      simp only [Thunk.WellScoped, Suspension.WellScoped] at h
      refine Eval.Keeps.bind Eval.Keeps.get ?_
      intro s hs
      split
      · next v hkept => exact Eval.Keeps.pure (hs address v hkept)
      · refine Eval.Keeps.bind
          (Eval.Keeps.bind Eval.Keeps.count fun _ _ => hev setting env e h.2 h.1) ?_
        intro v hv
        refine Eval.Keeps.modifyGet ?_
        intro s hs
        -- A result that another evaluation kept in the meantime is well-scoped as well.
        cases hkept : s.store.kept? address with
        | some kept => exact ⟨hs, hs address kept hkept⟩
        | none => exact ⟨Store.WellScoped.keep hs hv address, hv⟩

theorem forceTail_keeps {tail : Thunk} (h : tail.WellScoped) :
    (forceTail ev tail).KeepsScopes Value.WellScoped := by
  exact Eval.Keeps.bind (force_keeps hev h) fun v hv => asTail_keeps hv

/-! ### Equality -/

/-- What is still to be compared is well-scoped. -/
def Comparison.WellScoped : Comparison → Prop
  | .values left right => left.WellScoped ∧ right.WellScoped
  | .tails left right => left.WellScoped ∧ right.WellScoped
  | .envs left right => left.WellScoped ∧ right.WellScoped

/-- What a meeting leaves to be compared is well-scoped. -/
def Meeting.WellScoped : Meeting → Prop
  | .equal | .unequal => True
  | .envs left right => left.WellScoped ∧ right.WellScoped
  | .parts left right next => left.WellScoped ∧ right.WellScoped ∧ next.WellScoped

omit hev in
theorem Value.WellScoped.meet {left right : Value} (hleft : left.WellScoped)
    (hright : right.WellScoped) : (left.meet right).WellScoped := by
  unfold Value.meet
  split <;> try split
  all_goals simp_all [Meeting.WellScoped, Value.WellScoped, Comparison.WellScoped]

omit hev in
theorem Env.WellScoped.meet {left right : Env} (hleft : left.WellScoped)
    (hright : right.WellScoped) : (left.meet right).WellScoped := by
  unfold Env.meet
  split <;> try split
  all_goals simp_all [Meeting.WellScoped, Env.WellScoped, Comparison.WellScoped]

theorem Meeting.proceed_keeps {fuel : Nat} {todo : List Comparison} {m : Meeting}
    (ih : ∀ todo, (∀ c ∈ todo, c.WellScoped) → (compareAll ev fuel todo).KeepsScopes fun _ => True)
    (htodo : ∀ c ∈ todo, c.WellScoped) (hm : m.WellScoped) :
    (m.proceed ev fuel todo).KeepsScopes (fun _ => True) := by
  cases m with
  | equal => exact ih todo htodo
  | unequal => exact Eval.Keeps.pure trivial
  | envs left right => exact ih _ (List.forall_mem_cons.2 ⟨hm, htodo⟩)
  | parts left right next =>
      obtain ⟨hleft, hright, hnext⟩ := hm
      refine Eval.Keeps.bind (force_keeps hev hleft) ?_
      intro x hx
      refine Eval.Keeps.bind (force_keeps hev hright) ?_
      intro y hy
      exact ih _ (List.forall_mem_cons.2 ⟨⟨hx, hy⟩, List.forall_mem_cons.2 ⟨hnext, htodo⟩⟩)

theorem compareAll_keeps (fuel : Nat) (todo : List Comparison) (h : ∀ c ∈ todo, c.WellScoped) :
    (compareAll ev fuel todo).KeepsScopes (fun _ => True) := by
  induction fuel generalizing todo with
  | zero =>
      unfold compareAll
      exact Eval.Keeps.throw trivial
  | succ fuel ih =>
      cases todo with
      | nil =>
          unfold compareAll
          exact Eval.Keeps.pure trivial
      | cons c todo =>
          rw [List.forall_mem_cons] at h
          obtain ⟨hc, htodo⟩ := h
          cases c with
          | values left right =>
              rw [compareAll_values]
              split
              · exact ih todo htodo
              · exact Meeting.proceed_keeps hev ih htodo (hc.1.meet hc.2)
          | tails left right =>
              rw [compareAll_tails]
              refine Eval.Keeps.bind (forceTail_keeps hev hc.1) ?_
              intro x hx
              refine Eval.Keeps.bind (forceTail_keeps hev hc.2) ?_
              intro y hy
              exact ih _ (List.forall_mem_cons.2 ⟨⟨hx, hy⟩, htodo⟩)
          | envs left right =>
              rw [compareAll_envs]
              split
              · exact ih todo htodo
              · exact Meeting.proceed_keeps hev ih htodo (hc.1.meet hc.2)

theorem equal_keeps (fuel : Nat) {left right : Value} (hleft : left.WellScoped)
    (hright : right.WellScoped) : (equal ev fuel left right).KeepsScopes (fun _ => True) := by
  refine compareAll_keeps hev fuel _ ?_
  simpa using show (Comparison.values left right).WellScoped from ⟨hleft, hright⟩

/-! ### Operators, primitives and calls -/

theorem applyBinary_keeps (fuel : Nat) {op : BinaryOp} {left right : Value}
    (hleft : left.WellScoped) (hright : right.WellScoped) :
    (applyBinary ev fuel op left right).KeepsScopes Value.WellScoped := by
  cases hop : strictBinary op left right with
  | some result =>
      rw [applyBinary_eq_lift hop]
      exact Eval.KeepsScopes.liftPlain (strictBinary_plain hop)
  | none =>
      have htruth (b : Bool) : (Value.bool b).WellScoped := by simp only [Value.WellScoped]
      have hequal := equal_keeps hev fuel hleft hright
      cases op <;> simp only [strictBinary, reduceCtorEq] at hop
      · exact Eval.Keeps.bind hequal fun _ _ => Eval.Keeps.pure (htruth _)
      · exact Eval.Keeps.bind hequal fun _ _ => Eval.Keeps.pure (htruth _)

theorem applyPrim_keeps {p : Prim} {arg : Value} (harg : arg.WellScoped) :
    (applyPrim ev p arg).KeepsScopes Value.WellScoped := by
  cases hp : p.inspect arg with
  | some result =>
      rw [applyPrim_eq_lift hp]
      exact Eval.KeepsScopes.liftPlain (Prim.inspect_plain hp)
  | none =>
      obtain ⟨tag, head, tail, rfl, rfl | rfl⟩ := Prim.inspect_eq_none hp
      · simp only [Value.WellScoped] at harg
        exact force_keeps hev harg.1
      · simp only [Value.WellScoped] at harg
        exact forceTail_keeps hev harg.2

/-- Delayed expressions keep their names and become well-scoped thunks. -/
theorem delayAll_keeps {setting : Setting} {env : Env} (henv : env.WellScoped)
    (bindings : List (Name × Expr)) (h : ∀ b ∈ bindings, env.Binds b.2) :
    (delayAll ev setting env bindings).KeepsScopes fun thunks =>
      thunks.map Prod.fst = bindings.map Prod.fst ∧ ∀ t ∈ thunks, t.2.WellScoped := by
  induction bindings with
  | nil =>
      unfold delayAll
      exact Eval.Keeps.pure ⟨rfl, by simp⟩
  | cons b bindings ih =>
      obtain ⟨name, e⟩ := b
      rw [List.forall_mem_cons] at h
      unfold delayAll
      refine Eval.Keeps.bind (delay_keeps hev henv h.1) ?_
      intro thunk hthunk
      refine Eval.Keeps.bind (ih h.2) ?_
      rintro thunks ⟨hnames, hthunks⟩
      exact Eval.Keeps.pure ⟨by simp [hnames], List.forall_mem_cons.2 ⟨hthunk, hthunks⟩⟩

/-- The body of a binding form sees the bound names in front of those of the outer environment. -/
theorem evalBinding_keeps {setting : Setting} {env outer : Env} (henv : env.WellScoped)
    (houter : outer.WellScoped) {bindings : List (Name × Expr)} {body : Expr}
    (hbindings : ∀ b ∈ bindings, env.Binds b.2)
    (hbody : checkIn (bindings.map Prod.fst ++ outer.names) body = .ok ()) :
    (evalBinding ev setting env outer bindings body).KeepsScopes Value.WellScoped := by
  refine Eval.Keeps.bind (delayAll_keeps hev henv bindings hbindings) ?_
  rintro thunks ⟨hnames, hthunks⟩
  have hextend : (Eval.extend outer thunks).KeepsScopes
      fun inner => inner.WellScoped ∧ inner.names = thunks.map Prod.fst ++ outer.names :=
    Eval.Keeps.modifyGet fun s hs =>
      ⟨hs.of_cells (Store.extend_cells _ _ _), Store.extend_wellScoped houter hthunks,
        Store.extend_names _ _ _⟩
  refine Eval.Keeps.bind hextend ?_
  rintro inner ⟨hinner, hinnerNames⟩
  refine hev setting inner body hinner ?_
  rw [Env.Binds, hinnerNames, hnames]
  exact hbody

theorem callClosure_keeps {setting : Setting} {env captured : Env} {lambda : Lambda}
    {args : List Expr} (henv : env.WellScoped) (hcaptured : captured.WellScoped)
    (hbody : checkIn (lambda.params.map Binder.name ++ captured.names) lambda.body = .ok ())
    (hargs : ∀ arg ∈ args, env.Binds arg) :
    (callClosure ev setting env lambda captured args).KeepsScopes Value.WellScoped := by
  unfold callClosure
  split
  · next harity =>
      refine Eval.Keeps.bind Eval.Keeps.count ?_
      intro _ _
      refine evalBinding_keeps hev henv hcaptured ?_ ?_
      · intro b hb
        exact hargs b.2 (List.of_mem_zip hb).2
      · have hlength : (lambda.params.map Binder.name).length ≤ args.length := by
          rw [List.length_map, ← harity]
          exact Nat.le_refl _
        rw [List.map_fst_zip hlength]
        exact hbody
  · exact Eval.Keeps.fail rfl

theorem evalCons_keeps {setting : Setting} {env : Env} {head tail : Expr} (henv : env.WellScoped)
    (hhead : env.Binds head) (htail : env.Binds tail) :
    (evalCons ev setting env head tail).KeepsScopes Value.WellScoped := by
  by_cases hlists : setting.policy.lists = .value
  · rw [evalCons_eager ev setting env hlists]
    refine Eval.Keeps.bind (hev setting env head henv hhead) fun x hx => ?_
    refine Eval.Keeps.bind (hev setting env tail henv htail) fun v hv => ?_
    refine Eval.Keeps.bind (asTail_keeps hv) fun y hy => ?_
    exact buildCell_keeps (by simpa only [Thunk.WellScoped]) (by simpa only [Thunk.WellScoped])
  · rw [evalCons_lazy ev setting env hlists]
    refine Eval.Keeps.bind (delay_keeps hev henv hhead) fun x hx => ?_
    refine Eval.Keeps.bind (delay_keeps hev henv htail) fun y hy => ?_
    exact buildCell_keeps hx hy

theorem callPrim_keeps {setting : Setting} {env : Env} {p : Prim} {args : List Expr}
    (henv : env.WellScoped) (hargs : ∀ arg ∈ args, env.Binds arg) :
    (callPrim ev setting env p args).KeepsScopes Value.WellScoped := by
  by_cases hcount : p.argCount = args.length
  · obtain ⟨rfl, head, tail, rfl⟩ | ⟨hone, arg, rfl⟩ := Prim.args_cases hcount
    · rw [callPrim_cons]
      refine Eval.Keeps.bind Eval.Keeps.count fun _ _ => ?_
      exact evalCons_keeps hev henv (hargs head (by simp)) (hargs tail (by simp))
    · rw [callPrim_single ev setting env hone]
      refine Eval.Keeps.bind Eval.Keeps.count fun _ _ => ?_
      refine Eval.Keeps.bind (hev _ _ _ henv (hargs arg (by simp))) fun v hv => ?_
      exact applyPrim_keeps hev hv
  · rw [callPrim_mismatch ev setting env hcount]
    exact Eval.Keeps.bind Eval.Keeps.count fun _ _ => Eval.Keeps.fail rfl

/-! ### All forms -/

theorem evalLogical_keeps {setting : Setting} {env : Env} {op : BinaryOp} {decisive : Bool}
    {left right : Expr} (henv : env.WellScoped) (hleft : env.Binds left)
    (hright : env.Binds right) :
    (evalLogical ev setting env op decisive left right).KeepsScopes Value.WellScoped := by
  have htruth (b : Bool) : (Value.bool b).WellScoped := by simp only [Value.WellScoped]
  refine Eval.Keeps.bind (hev _ _ _ henv hleft) fun v _ => ?_
  refine Eval.Keeps.bind (Eval.KeepsScopes.liftBool v) fun a _ => ?_
  split
  · exact Eval.Keeps.pure (htruth a)
  · refine Eval.Keeps.bind (hev _ _ _ henv hright) fun u _ => ?_
    refine Eval.Keeps.bind (Eval.KeepsScopes.liftBool u) fun b _ => ?_
    exact Eval.Keeps.pure (htruth b)

/-- Every form of expression yields well-scoped values if the evaluator for its parts does. -/
theorem evalForm_keeps (fuel : Nat) {setting : Setting} {env : Env} {e : Expr}
    (henv : env.WellScoped) (he : env.Binds e) :
    (evalForm ev fuel setting env e).KeepsScopes Value.WellScoped := by
  cases e with
  | int | bool | null | prim =>
      exact Eval.Keeps.pure (by simp only [Value.WellScoped])
  | ident place name =>
      obtain ⟨thunk, hlookup, hthunk⟩ := henv.lookup he.ident
      simp only [evalForm, hlookup]
      exact force_keeps hev hthunk
  | unary place op operand =>
      refine Eval.Keeps.bind (hev _ _ _ henv he.unary) fun v _ => ?_
      exact Eval.KeepsScopes.liftPlain (applyUnary_plain op v)
  | binary place op left right =>
      obtain ⟨hleft, hright⟩ := he.binary
      cases hop : op.decisive? with
      | some decisive =>
          rw [evalForm_logical ev fuel setting env hop]
          exact evalLogical_keeps hev henv hleft hright
      | none =>
          rw [evalForm_binary ev fuel setting env hop]
          refine Eval.Keeps.bind (hev _ _ _ henv hleft) fun a ha => ?_
          refine Eval.Keeps.bind (hev _ _ _ henv hright) fun b hb => ?_
          exact applyBinary_keeps hev fuel ha hb
  | call place callee args =>
      obtain ⟨hcallee, hargs⟩ := he.call
      refine Eval.Keeps.bind (hev _ _ _ henv hcallee) fun v hv => ?_
      cases v with
      | closure tag lambda captured =>
          simp only [Value.WellScoped] at hv
          exact callClosure_keeps hev henv hv.2 hv.1 hargs
      | prim p => exact callPrim_keeps hev henv hargs
      | int | bool | nil | cons => exact Eval.Keeps.fail rfl
  | map place params body =>
      refine Eval.Keeps.bind Eval.KeepsScopes.freshTag fun tag _ => ?_
      exact Eval.Keeps.pure (by simpa only [Value.WellScoped] using ⟨he.map, henv⟩)
  | cond place test yes no =>
      obtain ⟨htest, hyes, hno⟩ := he.cond
      refine Eval.Keeps.bind (hev _ _ _ henv htest) fun v _ => ?_
      refine Eval.Keeps.bind (Eval.KeepsScopes.liftBool v) fun b _ => ?_
      split
      · exact hev _ _ _ henv hyes
      · exact hev _ _ _ henv hno
  | letIn place defs body =>
      obtain ⟨hdefs, hbody⟩ := he.letIn
      refine evalBinding_keeps hev henv henv ?_ ?_
      · intro b hb
        obtain ⟨d, hd, rfl⟩ := List.mem_map.1 hb
        exact hdefs d hd
      · rw [List.map_map]
        exact hbody

theorem evalStep_keeps (fuel : Nat) : Evaluator.KeepsScopes (evalStep ev fuel) := by
  intro setting env e henv he
  refine Eval.Keeps.within (fun _ => rfl) (fun stop h => h.leaving _) ?_
  exact Eval.Keeps.bind Eval.Keeps.count fun _ _ => evalForm_keeps hev fuel henv he

/-! ### Rendering -/

theorem renderSpine_keeps {item : Value → Eval String}
    (hitem : ∀ v, v.WellScoped → (item v).KeepsScopes fun _ => True) (isFirst : Bool)
    (out : String) (left : Nat) (v : Value) (hv : v.WellScoped) :
    (renderSpine ev item isFirst out left v).KeepsScopes fun _ => True := by
  induction left generalizing isFirst out v with
  | zero => cases v <;> exact Eval.Keeps.pure trivial
  | succ left ih =>
      cases v with
      | cons tag head tail =>
          simp only [Value.WellScoped] at hv
          unfold renderSpine
          refine Eval.Keeps.bind (force_keeps hev hv.1) fun x hx => ?_
          refine Eval.Keeps.bind (hitem x hx) fun element _ => ?_
          refine Eval.Keeps.bind (forceTail_keeps hev hv.2) fun rest hrest => ?_
          exact ih false _ rest hrest
      | int | bool | prim | closure | nil => exact Eval.Keeps.pure trivial

theorem renderIn_keeps (printDepth room : Nat) (v : Value) (hv : v.WellScoped) :
    (renderIn ev printDepth room v).KeepsScopes fun _ => True := by
  induction room generalizing v with
  | zero =>
      cases v with
      | bool b => cases b <;> exact Eval.Keeps.pure trivial
      | int | prim | closure | nil | cons => exact Eval.Keeps.pure trivial
  | succ room ih =>
      cases v with
      | bool b => cases b <;> exact Eval.Keeps.pure trivial
      | int | prim | closure => exact Eval.Keeps.pure trivial
      | nil | cons => exact renderSpine_keeps hev ih true "(" printDepth _ hv

end Forms

/-- An evaluation in a well-scoped environment that binds the variables of the expression yields
well-scoped values and never stops at a variable without a binding. -/
theorem eval_keeps (fuel : Nat) : Evaluator.KeepsScopes (eval fuel) := by
  induction fuel with
  | zero => exact fun _ _ _ _ _ => Eval.Keeps.throw trivial
  | succ fuel ih => exact evalStep_keeps ih fuel

end PolicyEval
