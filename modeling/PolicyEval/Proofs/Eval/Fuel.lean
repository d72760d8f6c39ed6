import PolicyEval.Proofs.Eval.Outcome
import PolicyEval.Proofs.Eval.Plan

/-!
# Fuel

Fuel decides only whether a computation has a result, not which one: with more fuel a computation
that did not run out of it ends as before, in the same state.

* `Eval.Extends` — a computation that ends as another one does unless that one runs out of fuel.
* `eval_extends`, `runProgram_extends` — more fuel extends.
-/

namespace PolicyEval

/-- The computation ran out of fuel. -/
def Eval.IsStarved {α : Type} (result : EStateM.Result Stop State α) : Prop :=
  ∃ s, result = .error .outOfFuel s

/-- The computation ends as another one does, unless that one runs out of fuel. -/
def Eval.Extends {α : Type} (more less : Eval α) : Prop :=
  ∀ s, IsStarved (less s) ∨ more s = less s

namespace Eval.Extends

variable {α β : Type}

theorem refl (body : Eval α) : Extends body body := fun _ => .inr rfl

theorem starved {more : Eval α} : Extends more (throw .outOfFuel) := fun s => .inl ⟨s, rfl⟩

theorem bind {more less : Eval α} {next next' : α → Eval β} (h : Extends more less)
    (hnext : ∀ a, Extends (next' a) (next a)) : Extends (more >>= next') (less >>= next) := by
  intro s
  rcases h s with ⟨s', hstarved⟩ | heq
  · exact .inl ⟨s', bind_of_error hstarved⟩
  · rw [bind_apply, bind_apply, heq]
    cases less s with
    | ok a s' => exact hnext a s'
    | error stop s' => exact .inr rfl

theorem within {more less : Eval α} (h : Extends more less) (limit : Option Nat) (span : Span) :
    Extends (Eval.within limit span more) (Eval.within limit span less) := by
  intro s
  unfold Eval.within
  cases s.depth.enter limit with
  | error n => exact .inr rfl
  | ok depth =>
      dsimp only
      rcases h { s with depth } with ⟨s', hstarved⟩ | heq
      · exact .inl ⟨_, by rw [hstarved]; rfl⟩
      · exact .inr (by rw [heq])

end Eval.Extends

section

variable {more less : Evaluator}

theorem force_extends (h : ∀ setting ρ e, Eval.Extends (more setting ρ e) (less setting ρ e))
    (x : Thunk) : Eval.Extends (force more x) (force less x) := by
  have hrun : ∀ q : Suspension, Eval.Extends (q.run more) (q.run less) := by
    rintro ⟨setting, ρ, e⟩
    exact .bind (.refl _) fun _ => h setting ρ e
  cases x with
  | ready v => exact .refl _
  | byName q => exact hrun q
  | byNeed address q =>
      refine .bind (.refl _) fun s => ?_
      split
      · exact .refl _
      · exact .bind (hrun q) fun _ => .refl _

theorem delay_extends (h : ∀ setting ρ e, Eval.Extends (more setting ρ e) (less setting ρ e))
    (d : Discipline) (setting : Setting) (ρ : Env) (e : Expr) :
    Eval.Extends (delay more d setting ρ e) (delay less d setting ρ e) := by
  cases d with
  | value => exact .bind (h setting ρ e) fun _ => .refl _
  | name | need => exact .refl _

theorem run_extends {α : Type} {m m' : Nat}
    (h : ∀ setting ρ e, Eval.Extends (more setting ρ e) (less setting ρ e))
    (hcompare : ∀ todo, Eval.Extends (compareAll more m' todo) (compareAll less m todo))
    (p : Plan α) : Eval.Extends (p.run more m') (p.run less m) := by
  induction p with
  | done | fail => exact .refl _
  | count step next ih => exact .bind (.refl _) fun _ => ih
  | eval setting ρ e next ih => exact .bind (h setting ρ e) ih
  | force x next ih => exact .bind (force_extends h x) ih
  | delay d setting ρ e next ih => exact .bind (delay_extends h d setting ρ e) ih
  | cell x y next ih => exact .bind (.refl _) fun _ => ih _
  | closure lambda ρ next ih => exact .bind (.refl _) fun _ => ih _
  | extend ρ bindings next ih => exact .bind (.refl _) ih
  | compare todo next ih => exact .bind (hcompare todo) ih

theorem compareAll_extends (h : ∀ setting ρ e, Eval.Extends (more setting ρ e) (less setting ρ e))
    {m m' : Nat} (hm : m ≤ m') (todo : List Comparison) :
    Eval.Extends (compareAll more m' todo) (compareAll less m todo) := by
  induction m generalizing m' todo with
  | zero => exact .starved
  | succ m ih =>
      obtain ⟨k, rfl⟩ : ∃ k, m' = k + 1 := ⟨m' - 1, by omega⟩
      rw [compareAll_succ, compareAll_succ]
      exact run_extends h (fun todo => ih (by omega) todo) _

end

/-- More fuel for evaluating extends. -/
theorem eval_extends {n n' : Nat} (hn : n ≤ n') (setting : Setting) (ρ : Env) (e : Expr) :
    Eval.Extends (eval n' setting ρ e) (eval n setting ρ e) := by
  induction n generalizing n' setting ρ e with
  | zero => exact .starved
  | succ n ih =>
      obtain ⟨k, rfl⟩ : ∃ k, n' = k + 1 := ⟨n' - 1, by omega⟩
      rw [eval_succ, eval_succ]
      have hless : n ≤ k := by omega
      refine .within (run_extends (fun setting ρ e => ih hless setting ρ e) ?_ _) _ _
      exact compareAll_extends (fun setting ρ e => ih hless setting ρ e) hless

/-- More fuel for running extends. -/
theorem runProgram_extends {fuel fuel' : Nat} (hfuel : fuel ≤ fuel') (config : Config)
    (root : Expr) : Eval.Extends (runProgram fuel' config root) (runProgram fuel config root) := by
  rw [runProgram_eq_run, runProgram_eq_run]
  have heval := fun setting ρ e => eval_extends hfuel setting ρ e
  exact run_extends heval (compareAll_extends heval hfuel) _

end PolicyEval
