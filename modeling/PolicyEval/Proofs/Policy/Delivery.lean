import PolicyEval.Proofs.Eval.Fuel
import PolicyEval.Proofs.Eval.Settling

/-!
# What a program comes to

A run is given fuel, but what a program comes to does not depend on it, as long as there is enough.

* `Delivers` — with enough fuel a program succeeds with a text.
* `FailsAtLimit` — with enough fuel a program fails since the nesting goes beyond the limit.
* `delivers_of_result`, `not_delivers_of_fault` — one run that ends tells what the program comes to.
-/

namespace PolicyEval

/-- With enough fuel, a program that starts on a store ends successfully, with the given text. -/
def Delivers (config : Config) (store : Store) (root : Expr) (text : String) : Prop :=
  ∃ enough, ∀ fuel, enough ≤ fuel → ((runProgram fuel config root).report store).result = .ok text

/-- A reported result is one that the computation ended with. -/
theorem Eval.report_result_eq_ok {α : Type} {store : Store} {body : Eval α} {a : α} :
    (body.report store).result = .ok a ↔ ∃ s, body (State.start store) = .ok a s := by
  unfold Eval.report
  cases body (State.start store) with
  | ok b s =>
      constructor
      · rintro ⟨⟩
        exact ⟨s, rfl⟩
      · rintro ⟨s', ⟨⟩⟩
        rfl
  | error stop s => exact ⟨nofun, nofun⟩

/-- With enough fuel, a program that starts on a store fails at the limit of nesting. -/
def FailsAtLimit (config : Config) (store : Store) (root : Expr) : Prop :=
  ∃ enough, ∀ fuel, enough ≤ fuel → ∃ f n,
    ((runProgram fuel config root).report store).result = .error (.fault f) ∧
      f.cause = .recursionLimit n

section

variable {config : Config} {store : Store} {root : Expr} {text : String}

/-- A program that settles delivers its text, or fails at the limit if that is tolerated. -/
theorem delivers_or_failsAtLimit {tolerant : Bool}
    (h : Settles tolerant (fun n m => (programPlan config root).run (eval n) m)
      (State.start store) fun text' _ => text' = text) :
    Delivers config store root text ∨ tolerant = true ∧ FailsAtLimit config store root := by
  rcases h with ⟨text', s', rfl, enough, hrun⟩ | ⟨htolerant, enough, hrun⟩
  · refine .inl ⟨enough, fun fuel hfuel => Eval.report_result_eq_ok.2 ⟨s', ?_⟩⟩
    rw [runProgram_eq_run]
    exact hrun fuel fuel hfuel hfuel
  · refine .inr ⟨htolerant, enough, fun fuel hfuel => ?_⟩
    obtain ⟨f, n, s', hfail, hcause⟩ := hrun fuel fuel hfuel hfuel
    refine ⟨f, n, ?_, hcause⟩
    dsimp only at hfail
    rw [← runProgram_eq_run] at hfail
    unfold Eval.report
    rw [hfail]

theorem delivers_of_settles
    (h : Settles false (fun n m => (programPlan config root).run (eval n) m) (State.start store)
      fun text' _ => text' = text) : Delivers config store root text :=
  (delivers_or_failsAtLimit h).resolve_right fun h => Bool.false_ne_true h.1

/-- A run that ended for another reason than lack of fuel ends the same way with more fuel. -/
theorem report_result_eq {fuel fuel' : Nat} {result : Except Stop String} (hfuel : fuel ≤ fuel')
    (h : ((runProgram fuel config root).report store).result = result)
    (hstop : result ≠ .error .outOfFuel) :
    ((runProgram fuel' config root).report store).result = result := by
  rcases runProgram_extends hfuel config root (State.start store) with ⟨s, hstarved⟩ | heq
  · unfold Eval.report at h
    rw [hstarved] at h
    exact absurd h.symm hstop
  · unfold Eval.report at h ⊢
    rw [heq]
    exact h

/-- One run that succeeds tells what the program delivers. -/
theorem delivers_of_result (fuel : Nat)
    (h : ((runProgram fuel config root).report store).result = .ok text) :
    Delivers config store root text :=
  ⟨fuel, fun _ hfuel => report_result_eq hfuel h (by simp)⟩

theorem Delivers.exists_run (h : Delivers config store root text) :
    ∃ fuel s, runProgram fuel config root (State.start store) = .ok text s := by
  obtain ⟨fuel, hfuel⟩ := h
  exact ⟨fuel, Eval.report_result_eq_ok.1 (hfuel fuel (Nat.le_refl fuel))⟩

/-- A program that fails does not deliver anything. -/
theorem not_delivers_of_fault {fuel : Nat} {f : Fault}
    (h : ((runProgram fuel config root).report store).result = .error (.fault f)) :
    ¬Delivers config store root text := by
  rintro ⟨enough, hdelivers⟩
  have hmore := report_result_eq (Nat.le_max_left fuel enough) h (by simp)
  rw [hdelivers _ (Nat.le_max_right fuel enough)] at hmore
  cases hmore

end

end PolicyEval
