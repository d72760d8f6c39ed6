import PolicyEval.Proofs.Eval.Cells
import PolicyEval.Proofs.Eval.Invariant
import PolicyEval.Proofs.Eval.Plan

/-!
# Kept results stay

A store cell that keeps a result keeps it forever: no computation of an evaluation removes or
replaces it, however the computation ends.

* `Eval.Retains` — a computation that leaves the result of a cell as it is.
* `eval_retains`, `force_retains` — evaluations and forces do.
* `Store.Le` — a store with all that another one keeps.
-/

namespace PolicyEval

/-- The computation leaves this result where it is kept. -/
abbrev Eval.Retains (address : Nat) (v : Value) {α : Type} (body : Eval α) : Prop :=
  Eval.Keeps (fun store => store.kept? address = some v) (fun _ => True) body fun _ => True

section

variable {address : Nat} {v : Value}

/-- Keeping a result leaves one that is already there. -/
theorem keep_retains (target : Nat) (w : Value) : (Eval.keep target w).Retains address v := by
  refine Eval.Keeps.modifyGet fun s hs => ⟨?_, trivial⟩
  cases hkept : s.store.kept? target with
  | some kept => exact hs
  | none =>
      have hne : address ≠ target := by
        rintro rfl
        rw [hs] at hkept
        cases hkept
      change (s.store.cells.setIfInBounds target (some w))[address]?.join = some v
      rw [Array.getElem?_setIfInBounds_ne hne.symm]
      exact hs

theorem allocate_retains : Eval.allocate.Retains address v :=
  Eval.Keeps.modifyGet fun s hs => ⟨(s.store.kept?_allocate address).trans hs, trivial⟩

theorem extend_retains (ρ : Env) (bindings : List (Name × Thunk)) :
    (Eval.extend ρ bindings).Retains address v := by
  refine Eval.Keeps.modifyGet fun s hs => ⟨?_, trivial⟩
  change (s.store.extend ρ bindings).2.cells[address]?.join = some v
  rw [Store.extend_cells]
  exact hs

section

variable {ev : Evaluator} (hev : ∀ setting ρ e, (ev setting ρ e).Retains address v)
include hev

theorem force_retains_of (x : Thunk) : (force ev x).Retains address v := by
  have hrun : ∀ q : Suspension, (q.run ev).Retains address v := by
    rintro ⟨setting, ρ, e⟩
    exact .bind .count fun _ _ => hev setting ρ e
  cases x with
  | ready w => exact .pure trivial
  | byName q => exact hrun q
  | byNeed target q =>
      refine Eval.Keeps.bind Eval.Keeps.get fun s _ => ?_
      split
      · exact .pure trivial
      · exact .bind (hrun q) fun w _ => keep_retains target w

theorem delay_retains_of (d : Discipline) (setting : Setting) (ρ : Env) (e : Expr) :
    (delay ev d setting ρ e).Retains address v := by
  cases d with
  | value => exact .bind (hev setting ρ e) fun _ _ => .pure trivial
  | name => exact .pure trivial
  | need => exact .bind allocate_retains fun _ _ => .pure trivial

theorem run_retains_of {loop : Nat}
    (hcompare : ∀ todo, (compareAll ev loop todo).Retains address v) {α : Type} (p : Plan α) :
    (p.run ev loop).Retains address v := by
  have htag : Eval.freshTag.Retains address v := .freshTag fun _ h => h
  induction p with
  | done a => exact .pure trivial
  | fail cause => exact .fail trivial
  | count step next ih => exact .bind .count fun _ _ => ih
  | eval setting ρ e next ih => exact .bind (hev setting ρ e) fun w _ => ih w
  | force x next ih => exact .bind (force_retains_of hev x) fun w _ => ih w
  | delay d setting ρ e next ih =>
      exact .bind (delay_retains_of hev d setting ρ e) fun x _ => ih x
  | cell x y next ih => exact .bind htag fun _ _ => ih _
  | closure lambda ρ next ih => exact .bind htag fun _ _ => ih _
  | extend ρ bindings next ih => exact .bind (extend_retains ρ bindings) fun a _ => ih a
  | compare todo next ih => exact .bind (hcompare todo) fun b _ => ih b

theorem compareAll_retains_of (loop : Nat) (todo : List Comparison) :
    (compareAll ev loop todo).Retains address v := by
  induction loop generalizing todo with
  | zero => exact .throw trivial
  | succ loop ih =>
      rw [compareAll_succ]
      exact run_retains_of hev ih _

end

/-- Evaluating leaves kept results where they are. -/
theorem eval_retains (n : Nat) (setting : Setting) (ρ : Env) (e : Expr) :
    (eval n setting ρ e).Retains address v := by
  induction n generalizing setting ρ e with
  | zero => exact .throw trivial
  | succ n ih =>
      rw [eval_succ]
      exact .within (fun _ => trivial) (fun _ _ => trivial)
        (run_retains_of ih (compareAll_retains_of ih n) _)

/-- Forcing leaves kept results where they are. -/
theorem force_retains (n : Nat) (x : Thunk) : (force (eval n) x).Retains address v :=
  force_retains_of (eval_retains n) x

end

/-- The second store keeps all that the first one keeps. -/
def Store.Le (store store' : Store) : Prop :=
  ∀ address v, store.kept? address = some v → store'.kept? address = some v

theorem Store.le_of_force {n : Nat} {x : Thunk} {s s' : State} {v : Value}
    (h : force (eval n) x s = .ok v s') : s.store.Le s'.store := by
  intro address w hkept
  have hretains := force_retains n x s hkept
  rw [h] at hretains
  exact hretains.1

end PolicyEval
