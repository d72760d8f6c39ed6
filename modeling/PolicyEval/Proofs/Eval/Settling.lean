import PolicyEval.Proofs.Eval.Ending

/-!
# Computations that settle

With too little fuel a computation has no result.  It settles if from some amount of fuel on it has
a result, always the same.  Where the nesting is limited, one may have to accept that it fails at
the limit instead.

* `Settles` — with enough fuel there is a result, or the limit is exceeded.
* `Settles.bind` — one computation after another.
* `Settles.eval`, `Settles.compare` — evaluating and comparing settle if the plans do.
-/

namespace PolicyEval

/-- The computation failed at the limit of nesting. -/
def Exceeds {α : Type} (result : EStateM.Result Stop State α) : Prop :=
  ∃ f limit s, result = .error (.fault f) s ∧ f.cause = .recursionLimit limit

/-- From some amount of fuel on, for evaluating and for comparing, the computation has one result,
which is good; or, if that is tolerated, it fails at the limit. -/
def Settles {α : Type} (tolerant : Bool) (body : Nat → Nat → Eval α) (s : State)
    (good : α → State → Prop) : Prop :=
  (∃ a s', good a s' ∧ ∃ N, ∀ n m, N ≤ n → N ≤ m → body n m s = .ok a s') ∨
    tolerant = true ∧ ∃ N, ∀ n m, N ≤ n → N ≤ m → Exceeds (body n m s)

namespace Settles

variable {α β : Type} {tolerant : Bool} {s : State}

theorem of_ok {body : Nat → Nat → Eval α} {good : α → State → Prop} {a : α} {s' : State}
    (h : ∀ n m, body n m s = .ok a s') (hgood : good a s') : Settles tolerant body s good :=
  .inl ⟨a, s', hgood, 0, fun n m _ _ => h n m⟩

/-- What a computation comes down to settles as it does. -/
theorem congr {body body' : Nat → Nat → Eval α} {good : α → State → Prop} {s₁ : State}
    (h : Settles tolerant body s₁ good) (heq : ∀ n m, body' n m s = body n m s₁) :
    Settles tolerant body' s good := by
  unfold Settles
  simp only [heq]
  exact h

theorem mono {body : Nat → Nat → Eval α} {good good' : α → State → Prop}
    (h : Settles tolerant body s good) (himp : ∀ a s', good a s' → good' a s') :
    Settles tolerant body s good' := by
  rcases h with ⟨a, s', hgood, hbody⟩ | hexceeds
  · exact .inl ⟨a, s', himp a s' hgood, hbody⟩
  · exact .inr hexceeds

theorem bind {first : Nat → Nat → Eval α} {next : α → Nat → Nat → Eval β}
    {mid : α → State → Prop} {good : β → State → Prop} (hfirst : Settles tolerant first s mid)
    (hnext : ∀ a s', mid a s' → Settles tolerant (next a) s' good) :
    Settles tolerant (fun n m => first n m >>= fun a => next a n m) s good := by
  rcases hfirst with ⟨a, s', hmid, N, hN⟩ | ⟨htolerant, N, hN⟩
  · have hrun : ∀ n m, N ≤ n → N ≤ m →
        (first n m >>= fun a => next a n m) s = next a n m s' := fun n m hn hm =>
      Eval.bind_of_ok (hN n m hn hm)
    rcases hnext a s' hmid with ⟨b, s'', hgood, M, hM⟩ | ⟨htolerant, M, hM⟩
    · refine .inl ⟨b, s'', hgood, max N M, fun n m hn hm => ?_⟩
      exact (hrun n m (by omega) (by omega)).trans (hM n m (by omega) (by omega))
    · refine .inr ⟨htolerant, max N M, fun n m hn hm => ?_⟩
      change Exceeds ((first n m >>= fun a => next a n m) s)
      rw [hrun n m (by omega) (by omega)]
      exact hM n m (by omega) (by omega)
  · refine .inr ⟨htolerant, N, fun n m hn hm => ?_⟩
    obtain ⟨f, limit, s', hrun, hcause⟩ := hN n m hn hm
    exact ⟨f, limit, s', Eval.bind_of_error hrun, hcause⟩

/-- Comparing settles if its first step does. -/
theorem compare {todo : List Comparison} {good : Bool → State → Prop}
    (h : Settles tolerant
      (fun n m => (stepPlan Comparison.identical todo).run (PolicyEval.eval n) m) s good) :
    Settles tolerant (fun n m => compareAll (PolicyEval.eval n) m todo) s good := by
  -- One more unit of fuel is needed for the step itself.
  have hstep : ∀ n m N, N + 1 ≤ n → N + 1 ≤ m → ∃ m', N ≤ m' ∧
      compareAll (PolicyEval.eval n) m todo =
        (stepPlan Comparison.identical todo).run (PolicyEval.eval n) m' := by
    intro n m N hn hm
    obtain ⟨m', rfl⟩ : ∃ m', m = m' + 1 := ⟨m - 1, by omega⟩
    exact ⟨m', by omega, compareAll_succ _ m' todo⟩
  rcases h with ⟨t, s', hgood, N, hN⟩ | ⟨htolerant, N, hN⟩
  · refine .inl ⟨t, s', hgood, N + 1, fun n m hn hm => ?_⟩
    obtain ⟨m', hm', heq⟩ := hstep n m N hn hm
    dsimp only
    rw [heq]
    exact hN n m' (by omega) hm'
  · refine .inr ⟨htolerant, N + 1, fun n m hn hm => ?_⟩
    obtain ⟨m', hm', heq⟩ := hstep n m N hn hm
    dsimp only
    rw [heq]
    exact hN n m' (by omega) hm'

/-- Evaluating settles if there is room for one more level and the plan of the expression settles
there. -/
theorem eval {setting : Setting} {ρ : Env} {e : Expr} {good : Value → State → Prop}
    (hroom : s.depth.HasRoom setting.maxDepth)
    (h : Settles tolerant (fun n m => (e.plan setting ρ).run (PolicyEval.eval n) m) s.entered
      fun v s' => good v { s' with depth := s'.depth.leave }) :
    Settles tolerant (fun n _ => PolicyEval.eval n setting ρ e) s good := by
  rcases h with ⟨v, s₁, hgood, N, hN⟩ | ⟨htolerant, N, hN⟩
  · refine .inl ⟨v, _, hgood, N + 1, fun n m hn hm => ?_⟩
    obtain ⟨n', rfl⟩ : ∃ n', n = n' + 1 := ⟨n - 1, by omega⟩
    have hrun := hN n' n' (by omega) (by omega)
    dsimp only at hrun ⊢
    rw [eval_eq_leaving_run hroom, hrun]
    rfl
  · refine .inr ⟨htolerant, N + 1, fun n m hn hm => ?_⟩
    obtain ⟨n', rfl⟩ : ∃ n', n = n' + 1 := ⟨n - 1, by omega⟩
    obtain ⟨f, limit, s₁, hrun, hcause⟩ := hN n' n' (by omega) (by omega)
    refine ⟨f.leaving e.span, limit, { s₁ with depth := s₁.depth.leave }, ?_, hcause⟩
    dsimp only at hrun ⊢
    rw [eval_eq_leaving_run hroom, hrun]
    rfl

/-- Without room for one more level evaluating fails at the limit. -/
theorem eval_exceeds {setting : Setting} {ρ : Env} {e : Expr} {good : Value → State → Prop}
    (hroom : ¬s.depth.HasRoom setting.maxDepth) :
    Settles true (fun n _ => PolicyEval.eval n setting ρ e) s good := by
  refine .inr ⟨rfl, 1, fun n m hn hm => ?_⟩
  obtain ⟨n', rfl⟩ : ∃ n', n = n' + 1 := ⟨n - 1, by omega⟩
  cases henter : s.depth.enter setting.maxDepth with
  | ok depth => exact absurd (Depth.enter_eq_ok.1 henter).1 hroom
  | error limit =>
      exact ⟨⟨.recursionLimit limit, none⟩, limit, s, eval_of_enter_eq_error henter n' ρ e, rfl⟩

end Settles

end PolicyEval
