import PolicyEval.Proofs.Eval.Fuel

/-!
# Computations that end

With too little fuel a computation has no outcome.  It ends if from some amount of fuel on it has
one, always the same: a result or a fault, with a state.

* `eval_of_hasRoom`, `eval_of_enter_eq_error` — an expression ends like its form, or at the limit.
* `Ends` — with enough fuel there is one outcome, and it is as expected.
* `Ends.bind` — one computation after another.
* `Ends.eval`, `Ends.compare` — evaluating and comparing end if the plans do.
* `ends_of_run` — one run of a plan that did not run out of fuel shows how it ends.
-/

namespace PolicyEval

/-- From some amount of fuel on, for evaluating and for comparing, the computation has one outcome,
which is as expected. -/
def Ends {α : Type} (body : Nat → Nat → Eval α) (s : State)
    (expected : EStateM.Result Stop State α → Prop) : Prop :=
  ∃ outcome, ¬Eval.IsStarved outcome ∧ expected outcome ∧
    ∃ N, ∀ n m, N ≤ n → N ≤ m → body n m s = outcome

/-- The outcome of a computation as it leaves an expression with the given span. -/
def Eval.leaving {α : Type} (span : Span) :
    EStateM.Result Stop State α → EStateM.Result Stop State α
  | .ok a s => .ok a { s with depth := s.depth.leave }
  | .error stop s => .error (stop.leaving span) { s with depth := s.depth.leave }

theorem Eval.isStarved_leaving_iff {α : Type} {span : Span}
    {outcome : EStateM.Result Stop State α} :
    IsStarved (leaving span outcome) ↔ IsStarved outcome := by
  constructor
  · rintro ⟨s, hs⟩
    cases outcome with
    | ok a s' => cases hs
    | error stop s' =>
        cases stop with
        | fault f => cases hs
        | outOfFuel => exact ⟨s', rfl⟩
  · rintro ⟨s, rfl⟩
    exact ⟨_, rfl⟩

theorem Eval.not_isStarved_ok {α : Type} {a : α} {s : State} :
    ¬IsStarved (.ok a s : EStateM.Result Stop State α) := by
  rintro ⟨s', ⟨⟩⟩

theorem Eval.not_isStarved_fault {α : Type} {f : Fault} {s : State} :
    ¬IsStarved (.error (.fault f) s : EStateM.Result Stop State α) := by
  rintro ⟨s', ⟨⟩⟩

/-! ## One level deeper -/

/-- The state in which the form of an expression is followed. -/
def State.entered (s : State) : State :=
  { s with depth := s.depth.deeper, counters := s.counters.countExpression }

section

variable {setting : Setting} {s : State}

/-- Where there is room for a level, an expression ends like its form, one level deeper. -/
theorem eval_of_hasRoom (hroom : s.depth.HasRoom setting.maxDepth) (fuel : Nat) (ρ : Env)
    (e : Expr) :
    eval (fuel + 1) setting ρ e s =
      Eval.leaving e.span (evalForm (eval fuel) fuel setting ρ e s.entered) := by
  have hcount : Eval.count Counters.countExpression { s with depth := s.depth.deeper } =
      .ok () s.entered :=
    rfl
  have hwithin := Eval.within_of_hasRoom hroom e.span do
    Eval.count Counters.countExpression
    evalForm (eval fuel) fuel setting ρ e
  rw [Eval.bind_of_ok hcount] at hwithin
  rw [eval, evalStep, hwithin]
  cases evalForm (eval fuel) fuel setting ρ e s.entered <;> rfl

/-- The same, if the plan of the form is followed. -/
theorem eval_eq_leaving_run (hroom : s.depth.HasRoom setting.maxDepth) (fuel : Nat) (ρ : Env)
    (e : Expr) :
    eval (fuel + 1) setting ρ e s =
      Eval.leaving e.span ((e.plan setting ρ).run (eval fuel) fuel s.entered) := by
  rw [eval_of_hasRoom hroom, evalForm_eq_run]

/-- Where there is none, the expression fails at the limit. -/
theorem eval_of_enter_eq_error {limit : Nat}
    (henter : s.depth.enter setting.maxDepth = .error limit) (fuel : Nat) (ρ : Env) (e : Expr) :
    eval (fuel + 1) setting ρ e s = .error (.fault ⟨.recursionLimit limit, none⟩) s := by
  rw [eval, evalStep, Eval.within, henter]

end

namespace Ends

variable {α β : Type} {s : State}

theorem of_eq {body : Nat → Nat → Eval α} {expected : EStateM.Result Stop State α → Prop}
    {outcome : EStateM.Result Stop State α} (h : ∀ n m, body n m s = outcome)
    (hstarved : ¬Eval.IsStarved outcome) (hexpected : expected outcome) : Ends body s expected :=
  ⟨outcome, hstarved, hexpected, 0, fun n m _ _ => h n m⟩

theorem mono {body : Nat → Nat → Eval α} {expected expected' : EStateM.Result Stop State α → Prop}
    (h : Ends body s expected) (himp : ∀ outcome, expected outcome → expected' outcome) :
    Ends body s expected' := by
  obtain ⟨outcome, hstarved, hexpected, hbody⟩ := h
  exact ⟨outcome, hstarved, himp outcome hexpected, hbody⟩

/-- What a computation comes down to ends as it does. -/
theorem congr {body body' : Nat → Nat → Eval α} {expected : EStateM.Result Stop State α → Prop}
    {s₁ : State} (h : Ends body s₁ expected) (heq : ∀ n m, body' n m s = body n m s₁) :
    Ends body' s expected := by
  unfold Ends
  simp only [heq]
  exact h

theorem bind {first : Nat → Nat → Eval α} {next : α → Nat → Nat → Eval β}
    {mid : EStateM.Result Stop State α → Prop} {expected : EStateM.Result Stop State β → Prop}
    (hfirst : Ends first s mid)
    (hnext : ∀ a s', mid (.ok a s') → Ends (next a) s' expected)
    (herror : ∀ stop s', mid (.error stop s') → expected (.error stop s')) :
    Ends (fun n m => first n m >>= fun a => next a n m) s expected := by
  obtain ⟨outcome, hstarved, hmid, N, hN⟩ := hfirst
  cases outcome with
  | error stop s' =>
      refine ⟨.error stop s', ?_, herror stop s' hmid, N, fun n m hn hm => ?_⟩
      · rintro ⟨s'', ⟨⟩⟩
        exact hstarved ⟨_, rfl⟩
      · exact Eval.bind_of_error (hN n m hn hm)
  | ok a s' =>
      obtain ⟨outcome, hstarved', hexpected, M, hM⟩ := hnext a s' hmid
      refine ⟨outcome, hstarved', hexpected, max N M, fun n m hn hm => ?_⟩
      dsimp only
      rw [Eval.bind_of_ok (hN n m (by omega) (by omega))]
      exact hM n m (by omega) (by omega)

/-- One more unit of fuel for comparing is needed for the step itself. -/
theorem compare {todo : List Comparison} {expected : EStateM.Result Stop State Bool → Prop}
    (h : Ends (fun n m => (stepPlan Comparison.identical todo).run (PolicyEval.eval n) m) s
      expected) :
    Ends (fun n m => compareAll (PolicyEval.eval n) m todo) s expected := by
  obtain ⟨outcome, hstarved, hexpected, N, hN⟩ := h
  refine ⟨outcome, hstarved, hexpected, N + 1, fun n m hn hm => ?_⟩
  obtain ⟨m', rfl⟩ : ∃ m', m = m' + 1 := ⟨m - 1, by omega⟩
  dsimp only
  rw [compareAll_succ]
  exact hN n m' (by omega) (by omega)

/-- Evaluating ends if there is room for one more level and the plan of the expression ends
there. -/
theorem eval {setting : Setting} {ρ : Env} {e : Expr}
    {expected : EStateM.Result Stop State Value → Prop}
    (hroom : s.depth.HasRoom setting.maxDepth)
    (h : Ends (fun n m => (e.plan setting ρ).run (PolicyEval.eval n) m) s.entered
      fun outcome => expected (Eval.leaving e.span outcome)) :
    Ends (fun n _ => PolicyEval.eval n setting ρ e) s expected := by
  obtain ⟨outcome, hstarved, hexpected, N, hN⟩ := h
  refine ⟨Eval.leaving e.span outcome, fun h => hstarved (Eval.isStarved_leaving_iff.1 h),
    hexpected, N + 1, fun n m hn hm => ?_⟩
  obtain ⟨n', rfl⟩ : ∃ n', n = n' + 1 := ⟨n - 1, by omega⟩
  have hbody := hN n' n' (by omega) (by omega)
  dsimp only at hbody ⊢
  rw [eval_eq_leaving_run hroom, hbody]

/-- Without room for one more level evaluating fails at the limit. -/
theorem eval_exceeds {setting : Setting} {ρ : Env} {e : Expr}
    {expected : EStateM.Result Stop State Value → Prop} {limit : Nat}
    (henter : s.depth.enter setting.maxDepth = .error limit)
    (h : expected (.error (.fault ⟨.recursionLimit limit, none⟩) s)) :
    Ends (fun n _ => PolicyEval.eval n setting ρ e) s expected := by
  refine ⟨_, Eval.not_isStarved_fault, h, 1, fun n m hn hm => ?_⟩
  obtain ⟨n', rfl⟩ : ∃ n', n = n' + 1 := ⟨n - 1, by omega⟩
  exact eval_of_enter_eq_error henter n' ρ e

end Ends

/-- A run of a plan that did not run out of fuel ends in that way with more fuel as well. -/
theorem ends_of_run {α : Type} {p : Plan α} {n m : Nat} {s : State}
    (h : ¬Eval.IsStarved (p.run (eval n) m s)) :
    Ends (fun n m => p.run (eval n) m) s fun outcome => outcome = p.run (eval n) m s := by
  refine ⟨_, h, rfl, max n m, fun n' m' hn hm => ?_⟩
  have heval := fun setting ρ e => eval_extends (show n ≤ n' by omega) setting ρ e
  have hextends := run_extends heval (compareAll_extends heval (show m ≤ m' by omega)) p s
  exact hextends.resolve_left h

end PolicyEval
