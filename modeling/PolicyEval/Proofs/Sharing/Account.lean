import Mathlib.Logic.Encodable.Basic
import Mathlib.Logic.Equiv.List
import PolicyEval.Proofs.Eval.Kinship

/-!
# An account of evaluation without a store

Sharing is what makes evaluation need a store: a thunk that is evaluated once keeps its result, and
objects are told apart by the step that made them.  Here is an account that needs no store.  Every
request of a plan has a seed, its position in the tree of all requests, and whatever a request makes
is marked by that seed.  A thunk that is evaluated once is evaluated under its own seed, wherever it
is forced, so each time the result is the very same.

The account has a budget for nesting, so it can be compared with evaluations under a limit.

* `Seed` — positions in the tree of requests.
* `Yields` — what a plan yields by this account.
* `Yields.unique` — it yields one thing only, whatever the budget.
* `Yields.unlimited` — what it yields under a budget it yields without one.
-/

namespace PolicyEval

/-! ## Seeds and budgets -/

/-- A position in the tree of requests: the way to it from the root. -/
abbrev Seed := List Nat

namespace Seed

/-- The mark of a seed. -/
def code (σ : Seed) : Nat := Encodable.encode σ

/-- The seed with a given mark. -/
def ofCode (n : Nat) : Seed := (Encodable.decode n).getD []

@[simp] theorem ofCode_code (σ : Seed) : ofCode σ.code = σ := by
  simp [ofCode, code]

end Seed

/-- One level deeper, a budget is one less; without a budget there is none below either. -/
def Below : Option Nat → Option Nat → Prop
  | none, none => True
  | some n, some m => n = m + 1
  | _, _ => False

theorem below_none : Below none none := trivial

/-! ## Seeded objects -/

/-- Where a thunk is evaluated that is forced at a seed, and what is evaluated there; nothing for a
value that is known. -/
def Thunk.home (σ : Seed) : Thunk → Option (Seed × Suspension)
  | .ready _ => none
  | .byName s => some (σ, s)
  | .byNeed address s => some (Seed.ofCode address, s)

/-- Puts bindings in front of an environment, in frames that are marked by a seed. -/
def Env.framed (σ : Seed) (env : Env) : List (Name × Thunk) → Env
  | [] => env
  | (name, thunk) :: rest =>
    .frame (Seed.code (σ ++ [rest.length])) name thunk (env.framed σ rest)

open Classical in
/-- Two things that are the same in every respect, marks included. -/
noncomputable def Comparison.coincides : Comparison → Bool
  | .values left right => decide (left = right)
  | .envs left right => decide (left = right)
  | .tails _ _ => false

namespace Comparison

@[simp] theorem coincides_values {a b : Value} : (values a b).coincides = true ↔ a = b := by
  simp [coincides]

@[simp] theorem coincides_envs {a b : Env} : (envs a b).coincides = true ↔ a = b := by
  simp [coincides]

end Comparison

/-! ## Comparisons that may be skipped -/

namespace Comparison

/-- A comparison of a thing with itself. -/
def IsReflexive : Comparison → Prop
  | values a b => a = b
  | tails x y => x = y
  | envs a b => a = b

theorem isReflexive_of_coincides {c : Comparison} (h : c.coincides = true) : c.IsReflexive := by
  cases c with
  | values a b => exact coincides_values.1 h
  | envs a b => exact coincides_envs.1 h
  | tails x y => cases h

/-- Related comparisons, of which the right side skips some that compare a thing with itself. -/
inductive Queue (value : Value → Value → Prop) (env : Env → Env → Prop) :
    List Comparison → List Comparison → Prop
  | nil : Queue value env [] []
  | cons {c c' : Comparison} {todo todo' : List Comparison} (hc : c.SameKind value env c')
      (h : Queue value env todo todo') : Queue value env (c :: todo) (c' :: todo')
  | skip {c c' : Comparison} {todo todo' : List Comparison} (hc : c.SameKind value env c')
      (hsame : c'.IsReflexive) (h : Queue value env todo todo') : Queue value env (c :: todo) todo'

theorem Queue.mono {value value' : Value → Value → Prop} {env env' : Env → Env → Prop}
    (hvalue : ∀ {v w}, value v w → value' v w) (henv : ∀ {a b}, env a b → env' a b)
    {todo todo' : List Comparison} (h : Queue value env todo todo') :
    Queue value' env' todo todo' := by
  induction h with
  | nil => exact .nil
  | cons hc _ ih => exact .cons (hc.mono hvalue henv) ih
  | skip hc hsame _ ih => exact .skip (hc.mono hvalue henv) hsame ih

end Comparison

/-- A meeting of a thing with itself. -/
def Meeting.IsReflexive : Meeting → Prop
  | .equal => True
  | .unequal => False
  | .envs a b => a = b
  | .parts x y c => x = y ∧ c.IsReflexive

theorem Value.meet_self_isReflexive (v : Value) : (v.meet v).IsReflexive := by
  cases v with
  | int | bool | prim => simp [Value.meet, Meeting.IsReflexive]
  | closure => simp [Value.meet, Meeting.IsReflexive]
  | nil => trivial
  | cons => exact ⟨rfl, rfl⟩

theorem Env.meet_self_isReflexive (ρ : Env) : (ρ.meet ρ).IsReflexive := by
  cases ρ with
  | empty => trivial
  | frame => simp [Env.meet, Name.same, Meeting.IsReflexive, Comparison.IsReflexive]

/-! ## The account -/

/-- What a plan yields under a budget, if its requests from the next one on have the seeds
`σ ++ [k]`, `σ ++ [k + 1]` and so on. -/
inductive Yields : {α : Type} → Option Nat → Seed → Nat → Plan α → α → Prop
  | done {α : Type} {b : Option Nat} {σ : Seed} {k : Nat} {a : α} : Yields b σ k (.done a) a
  | count {α : Type} {b : Option Nat} {σ : Seed} {k : Nat} {step : Counters → Counters}
      {p : Plan α} {a : α} (h : Yields b σ k p a) : Yields b σ k (.count step p) a
  | eval {α : Type} {b b' : Option Nat} {σ : Seed} {k : Nat} {setting : Setting} {ρ : Env}
      {e : Expr} {next : Value → Plan α} {v : Value} {a : α} (hlevel : Below b b')
      (hv : Yields b' (σ ++ [k]) 0 (e.plan setting ρ) v) (h : Yields b σ (k + 1) (next v) a) :
      Yields b σ k (.eval setting ρ e next) a
  | ready {α : Type} {b : Option Nat} {σ : Seed} {k : Nat} {next : Value → Plan α} {v : Value}
      {a : α} (h : Yields b σ (k + 1) (next v) a) : Yields b σ k (.force (.ready v) next) a
  | force {α : Type} {b b' : Option Nat} {σ τ : Seed} {k : Nat} {x : Thunk} {setting : Setting}
      {ρ : Env} {e : Expr} {next : Value → Plan α} {v : Value} {a : α}
      (hhome : x.home (σ ++ [k]) = some (τ, ⟨setting, ρ, e⟩)) (hlevel : Below b b')
      (hv : Yields b' τ 0 (e.plan setting ρ) v) (h : Yields b σ (k + 1) (next v) a) :
      Yields b σ k (.force x next) a
  | delayValue {α : Type} {b b' : Option Nat} {σ : Seed} {k : Nat} {setting : Setting} {ρ : Env}
      {e : Expr} {next : Thunk → Plan α} {v : Value} {a : α} (hlevel : Below b b')
      (hv : Yields b' (σ ++ [k]) 0 (e.plan setting ρ) v)
      (h : Yields b σ (k + 1) (next (.ready v)) a) :
      Yields b σ k (.delay .value setting ρ e next) a
  | delayName {α : Type} {b : Option Nat} {σ : Seed} {k : Nat} {setting : Setting} {ρ : Env}
      {e : Expr} {next : Thunk → Plan α} {a : α}
      (h : Yields b σ (k + 1) (next (.byName ⟨setting, ρ, e⟩)) a) :
      Yields b σ k (.delay .name setting ρ e next) a
  | delayNeed {α : Type} {b : Option Nat} {σ : Seed} {k : Nat} {setting : Setting} {ρ : Env}
      {e : Expr} {next : Thunk → Plan α} {a : α}
      (h : Yields b σ (k + 1) (next (.byNeed (Seed.code (σ ++ [k])) ⟨setting, ρ, e⟩)) a) :
      Yields b σ k (.delay .need setting ρ e next) a
  | cell {α : Type} {b : Option Nat} {σ : Seed} {k : Nat} {x y : Thunk} {next : Value → Plan α}
      {a : α} (h : Yields b σ (k + 1) (next (.cons (Seed.code (σ ++ [k])) x y)) a) :
      Yields b σ k (.cell x y next) a
  | closure {α : Type} {b : Option Nat} {σ : Seed} {k : Nat} {lambda : Lambda} {ρ : Env}
      {next : Value → Plan α} {a : α}
      (h : Yields b σ (k + 1) (next (.closure (Seed.code (σ ++ [k])) lambda ρ)) a) :
      Yields b σ k (.closure lambda ρ next) a
  | extend {α : Type} {b : Option Nat} {σ : Seed} {k : Nat} {ρ : Env}
      {bindings : List (Name × Thunk)} {next : Env → Plan α} {a : α}
      (h : Yields b σ (k + 1) (next (ρ.framed (σ ++ [k]) bindings)) a) :
      Yields b σ k (.extend ρ bindings next) a
  | compare {α : Type} {b : Option Nat} {σ : Seed} {k : Nat} {todo : List Comparison}
      {next : Bool → Plan α} {t : Bool} {a : α}
      (ht : Yields b (σ ++ [k]) 0 (stepPlan Comparison.coincides todo) t)
      (h : Yields b σ (k + 1) (next t) a) : Yields b σ k (.compare todo next) a

namespace Yields

/-- By this account a plan yields one thing only, whatever the budget. -/
theorem unique {α : Type} {b b' : Option Nat} {σ : Seed} {k : Nat} {p : Plan α} {a a' : α}
    (h : Yields b σ k p a) (h' : Yields b' σ k p a') : a = a' := by
  -- A plan and its seed determine each step of the account, so both derivations agree on it.
  induction h generalizing b' with
  | done =>
      cases h'
      rfl
  | count _ ih =>
      cases h' with
      | count h' => exact ih h'
  | eval _ _ _ ihv ih =>
      cases h' with
      | eval _ hv' h' =>
          obtain rfl := ihv hv'
          exact ih h'
  | ready _ ih =>
      cases h' with
      | ready h' => exact ih h'
      | force hhome' => cases hhome'
  | force hhome _ _ _ ihv ih =>
      cases h' with
      | ready => cases hhome
      | force hhome' _ hv' h' =>
          rw [hhome] at hhome'
          cases hhome'
          obtain rfl := ihv hv'
          exact ih h'
  | delayValue _ _ _ ihv ih =>
      cases h' with
      | delayValue _ hv' h' =>
          obtain rfl := ihv hv'
          exact ih h'
  | delayName _ ih =>
      cases h' with
      | delayName h' => exact ih h'
  | delayNeed _ ih =>
      cases h' with
      | delayNeed h' => exact ih h'
  | cell _ ih =>
      cases h' with
      | cell h' => exact ih h'
  | closure _ ih =>
      cases h' with
      | closure h' => exact ih h'
  | extend _ ih =>
      cases h' with
      | extend h' => exact ih h'
  | compare _ _ iht ih =>
      cases h' with
      | compare ht' h' =>
          obtain rfl := iht ht'
          exact ih h'

/-- What a plan yields under a budget it yields without one. -/
theorem unlimited {α : Type} {b : Option Nat} {σ : Seed} {k : Nat} {p : Plan α} {a : α}
    (h : Yields b σ k p a) : Yields none σ k p a := by
  induction h with
  | done => exact .done
  | count _ ih => exact .count ih
  | eval _ _ _ ihv ih => exact .eval below_none ihv ih
  | ready _ ih => exact .ready ih
  | force hhome _ _ _ ihv ih => exact .force hhome below_none ihv ih
  | delayValue _ _ _ ihv ih => exact .delayValue below_none ihv ih
  | delayName _ ih => exact .delayName ih
  | delayNeed _ ih => exact .delayNeed ih
  | cell _ ih => exact .cell ih
  | closure _ ih => exact .closure ih
  | extend _ ih => exact .extend ih
  | compare _ _ iht ih => exact .compare iht ih

end Yields

/-- What a thunk yields that is forced at a seed. -/
inductive Thunk.Yields (b : Option Nat) (σ : Seed) : Thunk → Value → Prop
  | ready {v : Value} : Thunk.Yields b σ (.ready v) v
  | run {x : Thunk} {b' : Option Nat} {τ : Seed} {setting : Setting} {ρ : Env} {e : Expr}
      {v : Value} (hhome : x.home σ = some (τ, ⟨setting, ρ, e⟩)) (hlevel : Below b b')
      (h : PolicyEval.Yields b' τ 0 (e.plan setting ρ) v) : Thunk.Yields b σ x v

namespace Thunk.Yields

theorem force {α : Type} {b : Option Nat} {σ : Seed} {k : Nat} {x : Thunk} {v : Value}
    {next : Value → Plan α} {a : α} (hx : x.Yields b (σ ++ [k]) v)
    (h : PolicyEval.Yields b σ (k + 1) (next v) a) :
    PolicyEval.Yields b σ k (.force x next) a := by
  cases hx with
  | ready => exact .ready h
  | run hhome hlevel hv => exact .force hhome hlevel hv h

theorem unique {b b' : Option Nat} {σ : Seed} {x : Thunk} {v v' : Value} (h : x.Yields b σ v)
    (h' : x.Yields b' σ v') : v = v' := by
  cases h with
  | ready =>
      cases h' with
      | ready => rfl
      | run hhome' => cases hhome'
  | run hhome _ hv =>
      cases h' with
      | ready => cases hhome
      | run hhome' _ hv' =>
          rw [hhome] at hhome'
          cases hhome'
          exact hv.unique hv'

end Thunk.Yields

end PolicyEval
