import Mathlib.Algebra.BigOperators.Group.Finset.Basic
import Mathlib.Algebra.Order.BigOperators.Group.Finset
import PolicyEval.Proofs.Cost.Toll
import PolicyEval.Proofs.Sharing.Account

/-!
# What the account charges

By the account a thunk that is evaluated once is evaluated under its own seed wherever it is forced,
so all its evaluations are one.  The bill of a plan is what it comes to if each of them is charged
once: a sum for what the plan does of its own, and the thunks that are evaluated once, each an item
with a price of its own.  An item does not include the items that evaluating it asks for; these are
on the bill beside it.

* `Item` — a thunk that is evaluated once, with its price.
* `Bills` — what a plan yields by the account, and its bill.
* `Bills.yields` — bills are for what the account yields.
-/

namespace PolicyEval

/-- The plan of evaluating an expression one level deeper, with its count. -/
def Expr.entry (setting : Setting) (ρ : Env) (e : Expr) : Plan Value :=
  .count Counters.countExpression (e.plan setting ρ)

/-- What forcing a thunk adds to the toll of evaluating its expression. -/
def Gauge.fee (g : Gauge) : Nat := g.weight Counters.countForced

/-- A thunk that is evaluated once, and what that is charged of its own. -/
structure Item where
  mark : Nat
  body : Suspension
  price : Nat

namespace Item

/-- The prices of items taken together. -/
def total (items : Finset Item) : Nat := ∑ item ∈ items, item.price

@[simp] theorem total_empty : total ∅ = 0 := Finset.sum_empty

theorem total_mono {items items' : Finset Item} (h : items ⊆ items') :
    total items ≤ total items' :=
  Finset.sum_le_sum_of_subset h

section

variable [DecidableEq Item]

/-- Items that are taken twice are charged once. -/
theorem total_union_le (items items' : Finset Item) :
    total (items ∪ items') ≤ total items + total items' := by
  unfold total
  rw [← Finset.sum_union_inter]
  exact Nat.le_add_right _ _

theorem total_union {items items' : Finset Item} (h : Disjoint items items') :
    total (items ∪ items') = total items + total items' :=
  Finset.sum_union h

theorem total_insert {item : Item} {items : Finset Item} (h : item ∉ items) :
    total (insert item items) = item.price + total items :=
  Finset.sum_insert h

theorem total_insert_le (item : Item) (items : Finset Item) :
    total (insert item items) ≤ item.price + total items := by
  rw [Finset.insert_eq]
  refine (total_union_le _ _).trans (Nat.add_le_add_right (Nat.le_of_eq ?_) _)
  exact Finset.sum_singleton _ _

end

end Item

/-- What a plan yields if its requests from the next one on have the seeds `σ ++ [k]`,
`σ ++ [k + 1]` and so on, what it is charged of its own, and the items on its bill. -/
inductive Bills (g : Gauge) :
    {α : Type} → Seed → Nat → Plan α → α → Nat → Set Item → Prop
  | done {α : Type} {σ : Seed} {k : Nat} {a : α} : Bills g σ k (.done a) a 0 ∅
  | count {α : Type} {σ : Seed} {k : Nat} {step : Counters → Counters} {p : Plan α} {a : α}
      {t : Nat} {D : Set Item} (h : Bills g σ k p a t D) :
      Bills g σ k (.count step p) a (g.weight step + t) D
  | eval {α : Type} {σ : Seed} {k : Nat} {setting : Setting} {ρ : Env} {e : Expr}
      {next : Value → Plan α} {v : Value} {a : α} {t t' : Nat} {D D' : Set Item}
      (hv : Bills g (σ ++ [k]) 0 (e.entry setting ρ) v t D)
      (h : Bills g σ (k + 1) (next v) a t' D') :
      Bills g σ k (.eval setting ρ e next) a (t + t') (D ∪ D')
  | ready {α : Type} {σ : Seed} {k : Nat} {next : Value → Plan α} {v : Value} {a : α} {t : Nat}
      {D : Set Item} (h : Bills g σ (k + 1) (next v) a t D) :
      Bills g σ k (.force (.ready v) next) a t D
  | byName {α : Type} {σ : Seed} {k : Nat} {setting : Setting} {ρ : Env} {e : Expr}
      {next : Value → Plan α} {v : Value} {a : α} {t t' : Nat} {D D' : Set Item}
      (hv : Bills g (σ ++ [k]) 0 (e.entry setting ρ) v t D)
      (h : Bills g σ (k + 1) (next v) a t' D') :
      Bills g σ k (.force (.byName ⟨setting, ρ, e⟩) next) a (g.fee + t + t') (D ∪ D')
  | byNeed {α : Type} {σ : Seed} {k mark : Nat} {setting : Setting} {ρ : Env} {e : Expr}
      {next : Value → Plan α} {v : Value} {a : α} {t t' : Nat} {D D' : Set Item}
      (hv : Bills g (Seed.ofCode mark) 0 (e.entry setting ρ) v t D)
      (h : Bills g σ (k + 1) (next v) a t' D') :
      Bills g σ k (.force (.byNeed mark ⟨setting, ρ, e⟩) next) a t'
        (insert ⟨mark, ⟨setting, ρ, e⟩, g.fee + t⟩ D ∪ D')
  | delayValue {α : Type} {σ : Seed} {k : Nat} {setting : Setting} {ρ : Env} {e : Expr}
      {next : Thunk → Plan α} {v : Value} {a : α} {t t' : Nat} {D D' : Set Item}
      (hv : Bills g (σ ++ [k]) 0 (e.entry setting ρ) v t D)
      (h : Bills g σ (k + 1) (next (.ready v)) a t' D') :
      Bills g σ k (.delay .value setting ρ e next) a (t + t') (D ∪ D')
  | delayName {α : Type} {σ : Seed} {k : Nat} {setting : Setting} {ρ : Env} {e : Expr}
      {next : Thunk → Plan α} {a : α} {t : Nat} {D : Set Item}
      (h : Bills g σ (k + 1) (next (.byName ⟨setting, ρ, e⟩)) a t D) :
      Bills g σ k (.delay .name setting ρ e next) a t D
  | delayNeed {α : Type} {σ : Seed} {k : Nat} {setting : Setting} {ρ : Env} {e : Expr}
      {next : Thunk → Plan α} {a : α} {t : Nat} {D : Set Item}
      (h : Bills g σ (k + 1) (next (.byNeed (Seed.code (σ ++ [k])) ⟨setting, ρ, e⟩)) a t D) :
      Bills g σ k (.delay .need setting ρ e next) a t D
  | cell {α : Type} {σ : Seed} {k : Nat} {x y : Thunk} {next : Value → Plan α} {a : α} {t : Nat}
      {D : Set Item} (h : Bills g σ (k + 1) (next (.cons (Seed.code (σ ++ [k])) x y)) a t D) :
      Bills g σ k (.cell x y next) a t D
  | closure {α : Type} {σ : Seed} {k : Nat} {lambda : Lambda} {ρ : Env} {next : Value → Plan α}
      {a : α} {t : Nat} {D : Set Item}
      (h : Bills g σ (k + 1) (next (.closure (Seed.code (σ ++ [k])) lambda ρ)) a t D) :
      Bills g σ k (.closure lambda ρ next) a t D
  | extend {α : Type} {σ : Seed} {k : Nat} {ρ : Env} {bindings : List (Name × Thunk)}
      {next : Env → Plan α} {a : α} {t : Nat} {D : Set Item}
      (h : Bills g σ (k + 1) (next (ρ.framed (σ ++ [k]) bindings)) a t D) :
      Bills g σ k (.extend ρ bindings next) a t D
  | compare {α : Type} {σ : Seed} {k : Nat} {todo : List Comparison} {next : Bool → Plan α}
      {b : Bool} {a : α} {t t' : Nat} {D D' : Set Item}
      (hb : Bills g (σ ++ [k]) 0 (stepPlan Comparison.coincides todo) b t D)
      (h : Bills g σ (k + 1) (next b) a t' D') :
      Bills g σ k (.compare todo next) a (t + t') (D ∪ D')

section

variable {g : Gauge} {σ : Seed}

theorem Yields.of_entry {b : Option Nat} {setting : Setting} {ρ : Env} {e : Expr} {v : Value}
    (h : Yields b σ 0 (e.entry setting ρ) v) : Yields b σ 0 (e.plan setting ρ) v := by
  cases h with
  | count h => exact h

/-- Bills are for what the account yields. -/
theorem Bills.yields {α : Type} {k : Nat} {p : Plan α} {a : α} {t : Nat} {D : Set Item}
    (h : Bills g σ k p a t D) : Yields none σ k p a := by
  induction h with
  | done => exact .done
  | count _ ih => exact .count ih
  | eval _ _ ihv ih => exact .eval below_none ihv.of_entry ih
  | ready _ ih => exact .ready ih
  | byName _ _ ihv ih => exact .force rfl below_none ihv.of_entry ih
  | byNeed _ _ ihv ih => exact .force rfl below_none ihv.of_entry ih
  | delayValue _ _ ihv ih => exact .delayValue below_none ihv.of_entry ih
  | delayName _ ih => exact .delayName ih
  | delayNeed _ ih => exact .delayNeed ih
  | cell _ ih => exact .cell ih
  | closure _ ih => exact .closure ih
  | extend _ ih => exact .extend ih
  | compare _ _ ihb ih => exact .compare ihb ih

/-- The bill of forcing a thunk at a seed. -/
inductive Thunk.Bills (g : Gauge) (σ : Seed) : Thunk → Value → Nat → Set Item → Prop
  | ready {v : Value} : Thunk.Bills g σ (.ready v) v 0 ∅
  | byName {setting : Setting} {ρ : Env} {e : Expr} {v : Value} {t : Nat} {D : Set Item}
      (h : PolicyEval.Bills g σ 0 (e.entry setting ρ) v t D) :
      Thunk.Bills g σ (.byName ⟨setting, ρ, e⟩) v (g.fee + t) D
  | byNeed {mark : Nat} {setting : Setting} {ρ : Env} {e : Expr} {v : Value} {t : Nat}
      {D : Set Item} (h : PolicyEval.Bills g (Seed.ofCode mark) 0 (e.entry setting ρ) v t D) :
      Thunk.Bills g σ (.byNeed mark ⟨setting, ρ, e⟩) v 0
        (insert ⟨mark, ⟨setting, ρ, e⟩, g.fee + t⟩ D)

namespace Thunk.Bills

theorem force {α : Type} {k : Nat} {x : Thunk} {v : Value} {next : Value → Plan α} {a : α}
    {t t' : Nat} {D D' : Set Item} (hx : x.Bills g (σ ++ [k]) v t D)
    (h : PolicyEval.Bills g σ (k + 1) (next v) a t' D') :
    PolicyEval.Bills g σ k (.force x next) a (t + t') (D ∪ D') := by
  cases hx with
  | ready =>
      rw [Nat.zero_add, Set.empty_union]
      exact .ready h
  | byName hv => exact .byName hv h
  | byNeed hv =>
      rw [Nat.zero_add]
      exact .byNeed hv h

/-- One thunk yields one value by the account. -/
theorem unique {x : Thunk} {v v' : Value} {t t' : Nat} {D D' : Set Item}
    (h : x.Bills g σ v t D) (h' : x.Bills g σ v' t' D') : v = v' := by
  cases h with
  | ready =>
      cases h'
      rfl
  | byName h =>
      cases h' with
      | byName h' => exact h.yields.unique h'.yields
  | byNeed h =>
      cases h' with
      | byNeed h' => exact h.yields.unique h'.yields

end Thunk.Bills

end

end PolicyEval
