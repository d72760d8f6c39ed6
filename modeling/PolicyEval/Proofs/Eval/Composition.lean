import PolicyEval.Proofs.Eval.Outcome
import PolicyEval.Proofs.Eval.Plan

/-!
# Properties of all computations

An evaluation is put together from few parts: results and stops, counts, steps that read and change
the store, one computation after another, and a computation one level deeper.  A property that these
keep holds of every evaluation, force, comparison and run.  Two such properties are shown here: the
depth is the same afterwards as before, and what is counted has no effect.

* `Eval.IsCompositional` — a property that the parts of computations keep.
* `Eval.IsCompositional.eval`, `Eval.IsCompositional.force` — it holds of evaluations and forces.
* `Eval.IsBalanced` — the depth is back where it was, and the deepest level is never forgotten.
* `Eval.IgnoresCounters` — counters change nothing but themselves.
-/

namespace PolicyEval

namespace Eval

variable {α β : Type}

/-- A computation that reads and changes the store only. -/
def onStore (step : Store → α × Store) : Eval α :=
  modifyGet fun s => ((step s.store).1, { s with store := (step s.store).2 })

theorem onStore_apply (step : Store → α × Store) (s : State) :
    onStore step s = .ok (step s.store).1 { s with store := (step s.store).2 } :=
  rfl

theorem keep_eq_onStore (address : Nat) (v : Value) :
    keep address v = onStore fun store =>
      match store.kept? address with
      | some kept => (kept, store)
      | none => (v, store.keep address v) := by
  funext s
  rw [keep_apply, onStore_apply]
  cases s.store.kept? address <;> rfl

theorem force_byNeed_eq (ev : Evaluator) (address : Nat) (q : Suspension) :
    force ev (.byNeed address q) =
      (onStore fun store => (store.kept? address, store)) >>= fun
        | some v => pure v
        | none => q.run ev >>= keep address := by
  rfl

/-- A property that the parts of computations keep. -/
structure IsCompositional (P : (α : Type) → Eval α → Prop) : Prop where
  pure : ∀ {α : Type} (a : α), P α (Pure.pure a)
  throw : ∀ {α : Type} (stop : Stop), P α (MonadExcept.throw stop)
  count : ∀ step, P Unit (Eval.count step)
  onStore : ∀ {α : Type} (step : Store → α × Store), P α (Eval.onStore step)
  bind : ∀ {α β : Type} {first : Eval α} {next : α → Eval β}, P α first → (∀ a, P β (next a)) →
    P β (first >>= next)
  within : ∀ {α : Type} (limit span) {body : Eval α}, P α body → P α (Eval.within limit span body)

namespace IsCompositional

variable {P : (α : Type) → Eval α → Prop} (h : IsCompositional P)
include h

section

variable {ev : Evaluator} (hev : ∀ setting ρ e, P Value (ev setting ρ e))
include hev

theorem force_of (x : Thunk) : P Value (PolicyEval.force ev x) := by
  have hrun : ∀ q : Suspension, P Value (q.run ev) := by
    rintro ⟨setting, ρ, e⟩
    exact h.bind (h.count _) fun _ => hev setting ρ e
  cases x with
  | ready v => exact h.pure v
  | byName q => exact hrun q
  | byNeed address q =>
      rw [force_byNeed_eq]
      refine h.bind (h.onStore _) fun kept => ?_
      cases kept with
      | some v => exact h.pure v
      | none =>
          refine h.bind (hrun q) fun v => ?_
          rw [keep_eq_onStore]
          exact h.onStore _

theorem delay_of (d : Discipline) (setting : Setting) (ρ : Env) (e : Expr) :
    P Thunk (delay ev d setting ρ e) := by
  cases d with
  | value => exact h.bind (hev setting ρ e) fun v => h.pure _
  | name => exact h.pure _
  | need => exact h.bind (h.onStore Store.allocate) fun _ => h.pure _

theorem run_of {loop : Nat} (hcompare : ∀ todo, P Bool (compareAll ev loop todo)) {α : Type}
    (p : Plan α) : P α (p.run ev loop) := by
  induction p with
  | done a => exact h.pure a
  | fail cause => exact h.throw _
  | count step next ih => exact h.bind (h.count step) fun _ => ih
  | eval setting ρ e next ih => exact h.bind (hev setting ρ e) ih
  | force x next ih => exact h.bind (h.force_of hev x) ih
  | delay d setting ρ e next ih => exact h.bind (h.delay_of hev d setting ρ e) ih
  | cell x y next ih => exact h.bind (h.onStore Store.freshTag) fun _ => ih _
  | closure lambda ρ next ih => exact h.bind (h.onStore Store.freshTag) fun _ => ih _
  | extend ρ bindings next ih => exact h.bind (h.onStore fun s => s.extend ρ bindings) ih
  | compare todo next ih => exact h.bind (hcompare todo) ih

theorem compareAll_of (loop : Nat) (todo : List Comparison) : P Bool (compareAll ev loop todo) := by
  induction loop generalizing todo with
  | zero => exact h.throw _
  | succ loop ih =>
      rw [compareAll_succ]
      exact h.run_of hev ih _

end

/-- Every evaluation has the property. -/
theorem eval (fuel : Nat) (setting : Setting) (ρ : Env) (e : Expr) :
    P Value (eval fuel setting ρ e) := by
  induction fuel generalizing setting ρ e with
  | zero => exact h.throw _
  | succ fuel ih =>
      rw [eval_succ]
      exact h.within _ _ (h.run_of ih (h.compareAll_of ih fuel) _)

/-- Every force has the property. -/
theorem force (fuel : Nat) (x : Thunk) : P Value (PolicyEval.force (PolicyEval.eval fuel) x) :=
  h.force_of (h.eval fuel) x

/-- So has whatever follows a plan. -/
theorem run (fuel loop : Nat) {α : Type} (p : Plan α) : P α (p.run (PolicyEval.eval fuel) loop) :=
  h.run_of (h.eval fuel) (h.compareAll_of (h.eval fuel) loop) p

end IsCompositional

/-! ## Balance -/

/-- The state after a computation, however it ends. -/
def after (body : Eval α) (s : State) : State :=
  match body s with
  | .ok _ s' => s'
  | .error _ s' => s'

/-- The depth is the same afterwards as before, and the deepest level is never forgotten. -/
def IsBalanced (body : Eval α) : Prop :=
  ∀ s, (body.after s).depth.current = s.depth.current ∧
    s.depth.deepest ≤ (body.after s).depth.deepest

theorem after_bind_ok {first : Eval α} {next : α → Eval β} {s s' : State} {a : α}
    (hfirst : first s = .ok a s') : (first >>= next).after s = (next a).after s' := by
  rw [after, after, bind_of_ok hfirst]

theorem after_bind_error {first : Eval α} {next : α → Eval β} {s s' : State} {stop : Stop}
    (hfirst : first s = .error stop s') : (first >>= next).after s = s' := by
  rw [after, bind_of_error hfirst]

/-- Leaving a level undoes entering it. -/
theorem IsBalanced.within {body : Eval α} (h : IsBalanced body) (limit : Option Nat)
    (span : Span) : IsBalanced (Eval.within limit span body) := by
  intro s
  have hbody := h { s with depth := s.depth.deeper }
  unfold after Eval.within at *
  cases henter : s.depth.enter limit with
  | error n => exact ⟨rfl, Nat.le_refl _⟩
  | ok depth =>
      obtain ⟨-, rfl⟩ := Depth.enter_eq_ok.1 henter
      dsimp only at hbody ⊢
      have hdeeper : s.depth.deeper.current = s.depth.current + 1 := rfl
      have hdeepest : s.depth.deepest ≤ s.depth.deeper.deepest := Nat.le_max_left _ _
      cases hrun : body { s with depth := s.depth.deeper } with
      | ok a s' | error stop s' =>
          rw [hrun] at hbody
          simp only [Depth.leave] at hbody ⊢
          omega

theorem isCompositional_isBalanced : IsCompositional fun _ body => IsBalanced body where
  pure _ _ := ⟨rfl, Nat.le_refl _⟩
  throw _ _ := ⟨rfl, Nat.le_refl _⟩
  count _ _ := ⟨rfl, Nat.le_refl _⟩
  onStore _ _ := ⟨rfl, Nat.le_refl _⟩
  within limit span _ h := h.within limit span
  bind {_ _ first next} hfirst hnext s := by
    have h := hfirst s
    cases hrun : first s with
    | error stop s' =>
        rw [after_bind_error hrun]
        rwa [after, hrun] at h
    | ok a s' =>
        rw [after_bind_ok hrun]
        rw [after, hrun] at h
        have h' := hnext a s'
        dsimp only at h
        omega

/-! ## Counters -/

/-- States that differ in what was counted only. -/
def SameButCounters (s t : State) : Prop := s.store = t.store ∧ s.depth = t.depth

/-- From states that differ in what was counted only, the computation ends in the same way, in such
states again. -/
def IgnoresCounters (body : Eval α) : Prop :=
  ∀ s t, SameButCounters s t →
    match body s, body t with
    | .ok a s', .ok b t' => a = b ∧ SameButCounters s' t'
    | .error stop s', .error stop' t' => stop = stop' ∧ SameButCounters s' t'
    | _, _ => False

theorem IgnoresCounters.within {body : Eval α} (h : IgnoresCounters body) (limit : Option Nat)
    (span : Span) : IgnoresCounters (Eval.within limit span body) := by
  rintro s t ⟨hstore, hdepth⟩
  unfold Eval.within
  rw [← hdepth]
  cases s.depth.enter limit with
  | error n => exact ⟨rfl, hstore, hdepth⟩
  | ok depth =>
      have hbody := h { s with depth } { t with depth } ⟨hstore, rfl⟩
      dsimp only
      cases hs : body { s with depth } <;> cases ht : body { t with depth } <;>
        simp only [hs, ht] at hbody ⊢
      · exact ⟨hbody.1, hbody.2.1, congrArg Depth.leave hbody.2.2⟩
      · exact ⟨congrArg (Stop.leaving · span) hbody.1, hbody.2.1, congrArg Depth.leave hbody.2.2⟩

theorem isCompositional_ignoresCounters : IsCompositional fun _ body => IgnoresCounters body where
  pure _ _ _ h := ⟨rfl, h⟩
  throw _ _ _ h := ⟨rfl, h⟩
  count _ _ _ h := ⟨rfl, h⟩
  onStore step s t h := by
    rw [onStore_apply, onStore_apply, h.1]
    exact ⟨rfl, rfl, h.2⟩
  within limit span _ h := h.within limit span
  bind {_ _ first next} hfirst hnext s t h := by
    have hrun := hfirst s t h
    rw [bind_apply, bind_apply]
    cases hs : first s <;> cases ht : first t <;> simp only [hs, ht] at hrun ⊢
    · obtain ⟨rfl, hsame⟩ := hrun
      exact hnext _ _ _ hsame
    · exact hrun

end Eval

end PolicyEval
