import PolicyEval.Proofs.Equality.Tags
import PolicyEval.Proofs.Eval.Composition
import PolicyEval.Proofs.Eval.Ending
import PolicyEval.Proofs.Eval.Relabeling

/-!
# Definitions are immediate application

A body under definitions, and the function from the defined names to that body applied to the
right-hand sides, are evaluated alike.  The application makes one object more, the function itself,
which nobody sees; so from there on it uses other tags, and it counts one call and one expression
more.

* `Value.TagsBelow`, `Env.TagsBelow` — data that was made before some tag was handed out.
* `Relabeling.skip` — tags that leave one out.
* `OutcomesAgree` — evaluations that cannot be told apart but for extra work.
* `evalBinding_relabeled` — a body under definitions, after a tag was left out.
* `eval_letIn_application` — definitions against application.
-/

namespace PolicyEval

/-! ## Tags that are not in use yet -/

mutual
/-- All tags that can be reached from the value are lower than `n`. -/
def Value.TagsBelow (n : Nat) : Value → Prop
  | .int _ | .bool _ | .prim _ | .nil => True
  | .closure tag _ ρ => tag < n ∧ ρ.TagsBelow n
  | .cons tag x y => tag < n ∧ x.TagsBelow n ∧ y.TagsBelow n

/-- All tags that can be reached from the thunk are lower than `n`. -/
def Thunk.TagsBelow (n : Nat) : Thunk → Prop
  | .ready v => v.TagsBelow n
  | .byName q | .byNeed _ q => q.TagsBelow n

/-- All tags that can be reached from the suspended expression are lower than `n`. -/
def Suspension.TagsBelow (n : Nat) : Suspension → Prop
  | .mk _ ρ _ => ρ.TagsBelow n

/-- All tags that can be reached from the bindings are lower than `n`. -/
def Env.TagsBelow (n : Nat) : Env → Prop
  | .empty => True
  | .frame tag _ x rest => tag < n ∧ x.TagsBelow n ∧ rest.TagsBelow n
end

/-- What the store keeps does not carry a tag that is still to be handed out. -/
def Store.IsFresh (store : Store) : Prop :=
  ∀ address v, store.kept? address = some v → v.TagsBelow store.nextTag

/-- The tags with one left out. -/
def Relabeling.skip (n : Nat) : Relabeling where
  tag t := if t < n then t else t + 1
  cell address := address
  tag_injective t t' h := by
    simp only at h
    split at h <;> split at h <;> omega
  cell_injective _ _ h := h

theorem Relabeling.skip_cell (n address : Nat) : (skip n).cell address = address := rfl

theorem Relabeling.skip_tag_of_lt {n t : Nat} (h : t < n) : (skip n).tag t = t := if_pos h

section

variable {n : Nat}

mutual
theorem Value.relabel_skip : {v : Value} → v.TagsBelow n → v.relabel (.skip n) = v
  | .int _, _ | .bool _, _ | .prim _, _ | .nil, _ => by simp only [Value.relabel]
  | .closure _ _ ρ, h => by
      simp only [Value.TagsBelow] at h
      simp only [Value.relabel, Relabeling.skip_tag_of_lt h.1, ρ.relabel_skip h.2]
  | .cons _ x y, h => by
      simp only [Value.TagsBelow] at h
      simp only [Value.relabel, Relabeling.skip_tag_of_lt h.1, x.relabel_skip h.2.1,
        y.relabel_skip h.2.2]

theorem Thunk.relabel_skip : (x : Thunk) → x.TagsBelow n → x.relabel (.skip n) = x
  | .ready v, h => by
      simp only [Thunk.TagsBelow] at h
      simp only [Thunk.relabel, Value.relabel_skip h]
  | .byName ⟨_, ρ, _⟩, h => by
      simp only [Thunk.TagsBelow, Suspension.TagsBelow] at h
      simp only [Thunk.relabel, Suspension.relabel, ρ.relabel_skip h]
  | .byNeed _ ⟨_, ρ, _⟩, h => by
      simp only [Thunk.TagsBelow, Suspension.TagsBelow] at h
      simp only [Thunk.relabel, Suspension.relabel, ρ.relabel_skip h, Relabeling.skip_cell]

theorem Env.relabel_skip : (ρ : Env) → ρ.TagsBelow n → ρ.relabel (.skip n) = ρ
  | .empty, _ => by simp only [Env.relabel]
  | .frame _ _ x rest, h => by
      simp only [Env.TagsBelow] at h
      simp only [Env.relabel, Relabeling.skip_tag_of_lt h.1, x.relabel_skip h.2.1,
        rest.relabel_skip h.2.2]
end

end

/-! ## Evaluations that stop at once -/

section

variable {ev : Evaluator} {setting : Setting} {depth : Nat} {stop : Stop} {ρ : Env}

/-- Whatever is evaluated at this depth stops in the same way. -/
def StopsAt (ev : Evaluator) (setting : Setting) (depth : Nat) (stop : Stop) : Prop :=
  ∀ ρ e s, s.depth.current = depth → ∃ s', ev setting ρ e s = .error stop s'

theorem StopsAt.delayAll (h : StopsAt ev setting depth stop) (ρ : Env)
    (bindings : List (Name × Expr)) {s : State} (hs : s.depth.current = depth) :
    (∃ s', delayAll ev setting ρ bindings s = .error stop s') ∨
      ∃ thunks s', delayAll ev setting ρ bindings s = .ok thunks s' ∧
        s'.depth.current = depth := by
  induction bindings generalizing s with
  | nil => exact .inr ⟨[], s, rfl, hs⟩
  | cons b bindings ih =>
      obtain ⟨name, e⟩ := b
      have hdelay : (∃ s', delay ev setting.policy.args setting ρ e s = .error stop s') ∨
          ∃ x s', delay ev setting.policy.args setting ρ e s = .ok x s' ∧
            s'.depth.current = depth := by
        cases setting.policy.args with
        | value =>
            obtain ⟨s', hrun⟩ := h ρ e s hs
            exact .inl ⟨s', Eval.bind_of_error hrun⟩
        | name => exact .inr ⟨_, s, rfl, hs⟩
        | need => exact .inr ⟨_, _, rfl, hs⟩
      unfold PolicyEval.delayAll
      rcases hdelay with ⟨s₁, hrun⟩ | ⟨x, s₁, hrun, hs₁⟩
      · exact .inl ⟨s₁, Eval.bind_of_error hrun⟩
      · rw [Eval.bind_of_ok hrun]
        rcases ih hs₁ with ⟨s₂, hrest⟩ | ⟨thunks, s₂, hrest, hs₂⟩
        · exact .inl ⟨s₂, Eval.bind_of_error hrest⟩
        · exact .inr ⟨_, s₂, Eval.bind_of_ok hrest, hs₂⟩

/-- Then so does a body under definitions, since the body is evaluated in any case. -/
theorem StopsAt.evalBinding (h : StopsAt ev setting depth stop) (ρ outer : Env)
    (bindings : List (Name × Expr)) (body : Expr) {s : State} (hs : s.depth.current = depth) :
    ∃ s', evalBinding ev setting ρ outer bindings body s = .error stop s' := by
  unfold PolicyEval.evalBinding
  rcases h.delayAll ρ bindings hs with ⟨s₁, hrun⟩ | ⟨thunks, s₁, hrun, hs₁⟩
  · exact ⟨s₁, Eval.bind_of_error hrun⟩
  · rw [Eval.bind_of_ok hrun]
    exact h _ body { s₁ with store := (s₁.store.extend outer thunks).2 } hs₁

theorem stopsAt_zero (setting : Setting) (depth : Nat) :
    StopsAt (eval 0) setting depth .outOfFuel :=
  fun _ _ s _ => ⟨s, rfl⟩

theorem stopsAt_limit {limit : Nat} (hlimit : setting.maxDepth = some limit)
    (hdepth : limit ≤ depth) (fuel : Nat) :
    StopsAt (eval (fuel + 1)) setting depth (.fault ⟨.recursionLimit limit, none⟩) := by
  rintro ρ e s rfl
  have henter : s.depth.enter setting.maxDepth = .error limit :=
    (Depth.enter_eq_error_iff _ _ _).2 ⟨hlimit, hdepth⟩
  exact ⟨s, eval_of_enter_eq_error henter fuel ρ e⟩

end

/-! ## A body under definitions -/

/-- An expression that was evaluated stood one level deeper. -/
theorem deepest_of_eval {fuel : Nat} {setting : Setting} {ρ : Env} {e : Expr} {s s' : State}
    {v : Value} (h : eval fuel setting ρ e s = .ok v s') :
    s.depth.current + 1 ≤ s'.depth.deepest := by
  cases fuel with
  | zero => cases h
  | succ fuel =>
      rw [eval_succ] at h
      obtain ⟨-, s₁, hbody, rfl⟩ := Eval.within_eq_ok.1 h
      have hbalanced := Eval.isCompositional_isBalanced.run fuel fuel
        (.count Counters.countExpression (e.plan setting ρ)) { s with depth := s.depth.deeper }
      rw [Eval.after, hbody] at hbalanced
      exact Nat.le_trans (Nat.le_max_right _ _) hbalanced.2

/-- The body of definitions that were evaluated stood one level deeper. -/
theorem deepest_of_evalBinding {fuel : Nat} {setting : Setting} {ρ outer : Env}
    {bindings : List (Name × Expr)} {body : Expr} {s s' : State} {v : Value}
    (h : evalBinding (eval fuel) setting ρ outer bindings body s = .ok v s') :
    s.depth.current + 1 ≤ s'.depth.deepest := by
  have hbalanced : ∀ {α : Type} (p : Plan α), (p.run (eval fuel) fuel).IsBalanced :=
    Eval.isCompositional_isBalanced.run fuel fuel
  obtain ⟨thunks, s₁, hthunks, h⟩ := Eval.bind_eq_ok.1 h
  obtain ⟨inner, s₂, hextend, h⟩ := Eval.bind_eq_ok.1 h
  have hdelays := hbalanced (.delays setting ρ bindings .done) s
  simp only [Plan.run_delays, Plan.run, bind_pure, Eval.after, hthunks] at hdelays
  cases hextend
  rw [← hdelays.1]
  have hdeepest := deepest_of_eval h
  exact hdeepest

/-- After a tag was left out and extra work was counted, a body under definitions is evaluated to
the same value under other tags. -/
theorem evalBinding_relabeled (r : Relabeling) (extra : Counters) (fuel : Nat) (setting : Setting)
    (ρ outer : Env) (bindings : List (Name × Expr)) (body : Expr) :
    Eval.Relabeled r extra (fun v w => w = v.relabel r)
      (evalBinding (eval fuel) setting ρ outer bindings body)
      (evalBinding (eval fuel) setting (ρ.relabel r) (outer.relabel r) bindings body) := by
  have hn := eval_relabeled r extra fuel
  have hrel : Plan.Related (relabelKinship r setting) (relabelKinship r setting).value ()
      (bindingPlan setting ρ outer bindings body)
      (bindingPlan setting (ρ.relabel r) (outer.relabel r) bindings body) :=
    Kinship.binding_related rfl rfl bindings body
  rw [← run_bindingPlan (eval fuel) fuel, ← run_bindingPlan (eval fuel) fuel]
  exact run_relabeled hn (compare_relabeled hn fuel) (bindingPlan_isStandard ..) hrel

/-- So is a value rendered. -/
theorem renderValue_relabeled (r : Relabeling) (extra : Counters) (fuel printDepth : Nat)
    (v : Value) :
    Eval.Relabeled r extra Eq (renderValue (eval fuel) printDepth v)
      (renderValue (eval fuel) printDepth (v.relabel r)) := by
  have hn := eval_relabeled r extra fuel
  have hstandard : (renderPlan printDepth printDepth v .done).IsStandard :=
    renderPlan_isStandard _ _ v fun _ => trivial
  -- The kinship needs some setting; a rendering asks for no expression.
  have hrel : Plan.Related (relabelKinship r ⟨.eager, none⟩) (fun _ => Eq) ()
      (renderPlan printDepth printDepth v .done)
      (renderPlan printDepth printDepth (v.relabel r) .done) :=
    Kinship.render_related printDepth printDepth rfl fun _ _ _ => .done rfl
  have hrun : ∀ v, (renderPlan printDepth printDepth v .done).run (eval fuel) fuel =
      renderValue (eval fuel) printDepth v := by
    intro v
    rw [run_renderPlan, renderValue]
    exact bind_pure _
  rw [← hrun, ← hrun]
  exact run_relabeled hn (compare_relabeled hn fuel) hstandard hrel

/-! ## Definitions and application -/

/-- How a computation ended, without the state in which it did. -/
def Eval.ending {α : Type} : EStateM.Result Stop State α → Except Stop α
  | .ok a _ => .ok a
  | .error stop _ => .error stop

/-- Two evaluations have the same outcome: neither has one with this much fuel, or both fail for the
same cause, or both have values.  Then the values cannot be told apart by rendering them, whatever
the fuel and the print depth, and the second profile is the first one with `more` counted. -/
inductive OutcomesAgree (more : Counters → Counters) :
    EStateM.Result Stop State Value → EStateM.Result Stop State Value → Prop
  | starved {s s' : State} : OutcomesAgree more (.error .outOfFuel s) (.error .outOfFuel s')
  | failed {f f' : Fault} {s s' : State} (h : f.cause = f'.cause) :
      OutcomesAgree more (.error (.fault f) s) (.error (.fault f') s')
  | finished {v v' : Value} {s s' : State}
      (hrender : ∀ fuel printDepth, Eval.ending (renderValue (eval fuel) printDepth v s) =
        Eval.ending (renderValue (eval fuel) printDepth v' s'))
      (hprofile : s'.profile = more s.profile) : OutcomesAgree more (.ok v s) (.ok v' s')

/-- What an application counts beyond the definitions: itself as a call, and the function as an
expression, which stands at the given depth. -/
def Counters.ofApplication (depth : Nat) : Counters :=
  { zero with expressions := 1, calls := 1, maxDepth := depth }

theorem Counters.ofApplication_merge {depth : Nat} {c : Counters} (h : depth ≤ c.maxDepth) :
    (ofApplication depth).merge c = c.countExpression.countCall := by
  simp [ofApplication, merge, zero, countExpression, countCall, h, UInt64.add_comm]

/-- Two evaluations correspond: neither has an outcome, both fail for the same cause, or both have
the same value in the same state, under other tags, the second one with an application counted on a
level that the first one reached as well. -/
inductive Applies (r : Relabeling) (depth : Nat) :
    EStateM.Result Stop State Value → EStateM.Result Stop State Value → Prop
  | starved {s s' : State} : Applies r depth (.error .outOfFuel s) (.error .outOfFuel s')
  | failed {f f' : Fault} {s s' : State} (h : f.cause = f'.cause) :
      Applies r depth (.error (.fault f) s) (.error (.fault f') s')
  | finished {v : Value} {s s' : State} (hs : s.Relabeled r (.ofApplication depth) s')
      (hdepth : depth ≤ s.depth.deepest) : Applies r depth (.ok v s) (.ok (v.relabel r) s')

namespace Applies

variable {r : Relabeling} {depth : Nat} {outcome outcome' : EStateM.Result Stop State Value}

theorem of_stop (stop : Stop) (s s' : State) :
    Applies r depth (.error stop s) (.error stop s') := by
  cases stop with
  | fault f => exact .failed rfl
  | outOfFuel => exact .starved

/-- The expressions may stand at different places. -/
theorem leaving (h : Applies r depth outcome outcome') (span span' : Span) :
    Applies r depth (Eval.leaving span outcome) (Eval.leaving span' outcome') := by
  cases h with
  | starved => exact .starved
  | failed h => exact .failed h
  | finished hs hdepth => exact .finished hs.leave hdepth

theorem outcomesAgree (h : Applies r depth outcome outcome') :
    OutcomesAgree (fun c => c.countExpression.countCall) outcome outcome' := by
  cases h with
  | starved => exact .starved
  | failed h => exact .failed h
  | @finished v s s' hs hdepth =>
      refine .finished (fun fuel printDepth => ?_) ?_
      · have hrun := renderValue_relabeled r (.ofApplication depth) fuel printDepth v s s' hs
        generalize renderValue (eval fuel) printDepth v s = rendered at hrun ⊢
        generalize renderValue (eval fuel) printDepth (v.relabel r) s' = rendered' at hrun ⊢
        cases hrun with
        | ok h => exact congrArg Except.ok h
        | error => rfl
      · rw [hs.profile]
        exact Counters.ofApplication_merge hdepth

end Applies

/-- The function from the defined names to the body, applied to the right-hand sides. -/
def Expr.application (place function : Place) (defs : List (Binder × Expr)) (body : Expr) : Expr :=
  .call place (.map function (defs.map Prod.fst) body) (defs.map Prod.snd)

section

variable {fuel : Nat} {setting : Setting} {ρ : Env} {s : State} (defs : List (Binder × Expr))
  (body : Expr)

/-- The state after the function of an application was made and is called. -/
def State.called (s : State) : State where
  store := s.store.freshTag.2
  depth := s.depth.deeper.leave
  counters := s.counters.countExpression.countCall

theorem State.relabeled_called (h : s.store.IsFresh) :
    s.Relabeled (.skip s.store.nextTag) (.ofApplication (s.depth.current + 1)) s.called where
  tag k := by
    simp [called, Store.freshTag, Relabeling.skip, Nat.add_right_comm]
  cell _ := rfl
  kept address := by
    change s.store.kept? address = _
    cases hkept : s.store.kept? address with
    | none => rfl
    | some v => exact congrArg some (Value.relabel_skip (h address v hkept)).symm
  current := s.depth.leave_deeper_current
  profile := by
    simp [called, profile, Counters.merge, Counters.ofApplication, Counters.zero,
      Counters.countExpression, Counters.countCall, Depth.deeper, Depth.leave, UInt64.add_comm,
      Nat.max_comm]

/-- Where there is room for its function, an application goes on like definitions. -/
theorem evalForm_application (hroom : s.depth.HasRoom setting.maxDepth)
    (place function : Place) :
    evalForm (eval (fuel + 1)) (fuel + 1) setting ρ (.application place function defs body) s =
      evalBinding (eval (fuel + 1)) setting ρ ρ (defs.map fun d => (d.1.name, d.2)) body
        s.called := by
  let lambda : Lambda := ⟨function, defs.map Prod.fst, body⟩
  have hcallee : eval (fuel + 1) setting ρ (.map function (defs.map Prod.fst) body) s =
      .ok (.closure s.store.nextTag lambda ρ)
        { s.called with counters := s.counters.countExpression } := by
    rw [eval, evalStep, Eval.within_of_hasRoom hroom]
    rfl
  have hbindings : (lambda.params.map Binder.name).zip (defs.map Prod.snd) =
      defs.map fun d => (d.1.name, d.2) := by
    rw [List.map_map, List.zip_map']
    rfl
  have harity : lambda.arity = (defs.map Prod.snd).length := by
    rw [Lambda.arity, List.length_map, List.length_map]
  have hcall : callClosure (eval (fuel + 1)) setting ρ lambda ρ (defs.map Prod.snd) =
      (do
        Eval.count Counters.countCall
        evalBinding (eval (fuel + 1)) setting ρ ρ (defs.map fun d => (d.1.name, d.2)) body) := by
    rw [callClosure, if_pos harity, hbindings]
  rw [Expr.application, evalForm, Eval.bind_of_ok hcallee]
  change callClosure (eval (fuel + 1)) setting ρ lambda ρ (defs.map Prod.snd) _ = _
  rw [hcall]
  rfl

/-- Definitions and the application correspond, up to the level that they enter. -/
theorem evalForm_applies (hstore : s.store.IsFresh) (hρ : ρ.TagsBelow s.store.nextTag)
    (letPlace place function : Place) :
    Applies (.skip s.store.nextTag) (s.depth.current + 1)
      (evalForm (eval fuel) fuel setting ρ (.letIn letPlace defs body) s)
      (evalForm (eval fuel) fuel setting ρ (.application place function defs body) s) := by
  let bindings := defs.map fun d => (d.1.name, d.2)
  -- Where the function cannot be evaluated, the body of the definitions cannot either.
  have hstops : ∀ stop, StopsAt (eval fuel) setting s.depth.current stop →
      Applies (.skip s.store.nextTag) (s.depth.current + 1)
        (evalForm (eval fuel) fuel setting ρ (.letIn letPlace defs body) s)
        (evalForm (eval fuel) fuel setting ρ (.application place function defs body) s) := by
    intro stop hstop
    obtain ⟨s₁, hlet⟩ := hstop.evalBinding ρ ρ bindings body rfl
    obtain ⟨s₂, hcallee⟩ := hstop ρ (.map function (defs.map Prod.fst) body) s rfl
    have hcall : evalForm (eval fuel) fuel setting ρ (.application place function defs body) s =
        .error stop s₂ := Eval.bind_of_error hcallee
    rw [evalForm, hlet, hcall]
    exact .of_stop stop s₁ s₂
  cases fuel with
  | zero => exact hstops _ (stopsAt_zero setting _)
  | succ fuel =>
      by_cases hroom : s.depth.HasRoom setting.maxDepth
      · rw [evalForm_application defs body hroom, evalForm]
        have hrun := evalBinding_relabeled (.skip s.store.nextTag)
          (.ofApplication (s.depth.current + 1)) (fuel + 1) setting ρ ρ bindings body s s.called
          (State.relabeled_called hstore)
        rw [Env.relabel_skip ρ hρ] at hrun
        have hdepth : ∀ {v s₁}, evalBinding (eval (fuel + 1)) setting ρ ρ bindings body s =
            .ok v s₁ → s.depth.current + 1 ≤ s₁.depth.deepest := deepest_of_evalBinding
        change Applies _ _ (evalBinding (eval (fuel + 1)) setting ρ ρ bindings body s)
          (evalBinding (eval (fuel + 1)) setting ρ ρ bindings body s.called)
        generalize evalBinding (eval (fuel + 1)) setting ρ ρ bindings body s = outcome at *
        generalize evalBinding (eval (fuel + 1)) setting ρ ρ bindings body s.called = outcome' at *
        cases hrun with
        | error stop => exact .of_stop stop _ _
        | ok h hs =>
            subst h
            exact .finished hs (hdepth rfl)
      · obtain ⟨limit, hlimit, hdepth⟩ : ∃ limit, setting.maxDepth = some limit ∧
            limit ≤ s.depth.current := by
          simpa [Depth.HasRoom] using hroom
        exact hstops _ (stopsAt_limit hlimit hdepth fuel)

/-- What the right-hand sides become does not depend on the names that are defined. -/
theorem map_snd_delayAll (ev : Evaluator) (setting : Setting) (ρ : Env)
    {bindings bindings' : List (Name × Expr)}
    (h : bindings.map Prod.snd = bindings'.map Prod.snd) :
    List.map Prod.snd <$> delayAll ev setting ρ bindings =
      List.map Prod.snd <$> delayAll ev setting ρ bindings' := by
  induction bindings generalizing bindings' with
  | nil =>
      obtain rfl := List.map_eq_nil_iff.1 h.symm
      rfl
  | cons b bindings ih =>
      obtain ⟨b', bindings', rfl⟩ : ∃ b' rest, bindings' = b' :: rest :=
        List.exists_cons_of_ne_nil (by rintro rfl; cases h)
      obtain ⟨hb, hrest⟩ := List.cons.inj h
      have hcons : ∀ (b : Name × Expr) (bindings : List (Name × Expr)),
          List.map Prod.snd <$> delayAll ev setting ρ (b :: bindings) =
            delay ev setting.policy.args setting ρ b.2 >>= fun x =>
              List.cons x <$> List.map Prod.snd <$> delayAll ev setting ρ bindings := by
        intro b bindings
        simp only [delayAll, map_bind, List.map_cons, Functor.map_map, bind_pure_comp]
      rw [hcons, hcons, hb, ih hrest]

/-- Definitions and the function of the defined names, applied to the right-hand sides, have the
same outcome under every policy and limit, whatever the fuel, and the application counts one call
and one expression more.  What the right-hand sides become does not depend on the names that are
defined, so no definition sees its siblings or itself. -/
theorem eval_letIn_application (hstore : s.store.IsFresh) (hρ : ρ.TagsBelow s.store.nextTag)
    (letPlace place function : Place) :
    OutcomesAgree (fun c => c.countExpression.countCall)
        (eval fuel setting ρ (.letIn letPlace defs body) s)
        (eval fuel setting ρ (.application place function defs body) s) ∧
      ∀ bindings : List (Name × Expr), bindings.map Prod.snd = defs.map Prod.snd →
        List.map Prod.snd <$> delayAll (eval fuel) setting ρ bindings =
          List.map Prod.snd <$>
            delayAll (eval fuel) setting ρ (defs.map fun d => (d.1.name, d.2)) := by
  refine ⟨?_, fun bindings hbindings => map_snd_delayAll _ _ _ ?_⟩
  · cases fuel with
    | zero => exact .starved
    | succ fuel =>
        cases henter : s.depth.enter setting.maxDepth with
        | error limit =>
            rw [eval_of_enter_eq_error henter, eval_of_enter_eq_error henter]
            exact .failed rfl
        | ok depth =>
            have hroom := (Depth.enter_eq_ok.1 henter).1
            have happlies : Applies _ _
                (evalForm (eval fuel) fuel setting ρ (.letIn letPlace defs body) s.entered)
                (evalForm (eval fuel) fuel setting ρ (.application place function defs body)
                  s.entered) :=
              evalForm_applies (s := s.entered) defs body hstore hρ letPlace place function
            rw [eval_of_hasRoom hroom, eval_of_hasRoom hroom]
            exact (happlies.leaving _ _).outcomesAgree
  · rw [hbindings, List.map_map]
    rfl

/-- Under need, `let f := map x to x; n := 2 in f(n)` has the value 2, and so has
`(map f, n to f(n))(map x to x, 2)`, which enters as many levels. -/
theorem eval_letIn_application_identity :
    let here : Place := ⟨0, ⟨0, 0⟩⟩
    let f : Name := ⟨1, "f"⟩
    let n : Name := ⟨2, "n"⟩
    let x : Name := ⟨3, "x"⟩
    let defs : List (Binder × Expr) :=
      [(⟨f, ⟨0, 0⟩⟩, .map here [⟨x, ⟨0, 0⟩⟩] (.ident here x)), (⟨n, ⟨0, 0⟩⟩, .int here 2)]
    let body : Expr := .call here (.ident here f) [.ident here n]
    let setting : Setting := ⟨⟨.need, .value⟩, some 9⟩
    let s : State := .start .empty
    s.store.IsFresh ∧ Env.empty.TagsBelow s.store.nextTag ∧
      ((runProgram 9 ⟨setting, 1⟩ (.letIn here defs body)).report .empty).result = .ok "2" ∧
      ((runProgram 9 ⟨setting, 1⟩ (.letIn here defs body)).report .empty).profile =
        ⟨7, 1, 0, 3, 0, 5⟩ ∧
      OutcomesAgree (fun c => c.countExpression.countCall)
        (eval 9 setting .empty (.letIn here defs body) s)
        (eval 9 setting .empty (.application here here defs body) s) := by
  intro here f n x defs body setting s
  have hstore : s.store.IsFresh := by
    intro address v hkept
    simp [s, State.start, Store.empty, Store.kept?] at hkept
  have hρ : Env.empty.TagsBelow s.store.nextTag := by simp only [Env.TagsBelow]
  refine ⟨hstore, hρ, by decide +kernel, by decide +kernel, ?_⟩
  exact (eval_letIn_application defs body hstore hρ here here here).1

end

/-! ## Sessions -/

section

variable {r : Ledger}

mutual
theorem Value.Recorded.tagsBelow : {v : Value} → v.Recorded r → v.TagsBelow r.next
  | .int _, _ | .bool _, _ | .prim _, _ | .nil, _ => by simp only [Value.TagsBelow]
  | .closure _ _ ρ, h => by
      simp only [Value.Recorded] at h
      simp only [Value.TagsBelow]
      exact ⟨r.lt_next h.1, h.2.tagsBelow⟩
  | .cons _ x y, h => by
      simp only [Value.Recorded] at h
      simp only [Value.TagsBelow]
      exact ⟨r.lt_next h.1, h.2.1.tagsBelow, h.2.2.tagsBelow⟩

theorem Thunk.Recorded.tagsBelow : {x : Thunk} → x.Recorded r → x.TagsBelow r.next
  | .ready v, h => by
      simp only [Thunk.Recorded] at h
      simp only [Thunk.TagsBelow]
      exact h.tagsBelow
  | .byName ⟨_, ρ, _⟩, h => by
      simp only [Thunk.Recorded, Suspension.Recorded] at h
      simp only [Thunk.TagsBelow, Suspension.TagsBelow]
      exact h.tagsBelow
  | .byNeed _ ⟨_, ρ, _⟩, h => by
      simp only [Thunk.Recorded, Suspension.Recorded] at h
      simp only [Thunk.TagsBelow, Suspension.TagsBelow]
      exact h.2.tagsBelow

theorem Env.Recorded.tagsBelow : {ρ : Env} → ρ.Recorded r → ρ.TagsBelow r.next
  | .empty, _ => by simp only [Env.TagsBelow]
  | .frame _ _ x rest, h => by
      simp only [Env.Recorded] at h
      simp only [Env.TagsBelow]
      exact ⟨r.lt_next h.1, h.2.1.tagsBelow, h.2.2.tagsBelow⟩
end

/-- A store is fresh if everything it keeps is its one party's own. -/
theorem Ledger.Covers.isFresh {store : Store} (h : r.Covers store)
    (howns : ∀ {address v}, store.kept? address = some v → r.owns address) : store.IsFresh := by
  intro address v hkept
  rw [← h.next]
  exact (h.kept (howns hkept) hkept).tagsBelow

/-- What is kept in a later store is owned there if it was so before. -/
theorem Ledger.Leads.owns {r' : Ledger} {store store' : Store} (h : r.Leads store r' store')
    (howns : ∀ {address v}, store.kept? address = some v → r.owns address) {address : Nat}
    {v : Value} (hkept : store'.kept? address = some v) : r'.owns address := by
  by_contra hnot
  rw [h.foreign hnot] at hkept
  exact hnot (h.le.owns (howns hkept))

end

/-- Whatever a session was asked, its store is fresh, and so are the values in its slots. -/
theorem Session.Reached.isFresh {s : Session} (h : s.Reached) :
    s.store.IsFresh ∧ ∀ slot v, s.slot? slot = some v → v.TagsBelow s.store.nextTag := by
  obtain ⟨r, hr, howns⟩ : ∃ r, s.Recorded r ∧
      ∀ {address v}, s.store.kept? address = some v → r.owns address := by
    induction h with
    | start config counting =>
        exact ⟨.empty, recorded_start config counting, fun hkept => by cases hkept⟩
    | perform _ fuel request ih =>
        obtain ⟨r, hr, howns⟩ := ih
        obtain ⟨r', hleads, hr'⟩ := hr.perform fuel request
        exact ⟨r', hr', hleads.owns howns⟩
    | configure _ config ih =>
        obtain ⟨r, hr, howns⟩ := ih
        exact ⟨r, ⟨hr.store, hr.slots⟩, howns⟩
  refine ⟨hr.store.isFresh howns, fun slot v hv => ?_⟩
  rw [← hr.store.next]
  exact (hr.slots hv).tagsBelow

end PolicyEval
