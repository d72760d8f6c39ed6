import PolicyEval.Proofs.Eval.Relabeling

/-!
# Evaluations over a used store

An evaluation over a store that was used before makes the same objects as over the empty store, only
with later tags and in later cells.  It does not look at what is there already, so it ends in the
same way and does the same work.

* `Store.displacement` — later tags and addresses.
* `profile_evalProgram`, `profile_runProgram` — the work of a program does not depend on the store.
-/

namespace PolicyEval

/-- Tags and addresses behind those that the store has used. -/
def Store.displacement (store : Store) : Relabeling where
  tag t := t + store.nextTag
  cell address := address + store.cells.size
  tag_injective _ _ h := Nat.add_right_cancel h
  cell_injective _ _ h := Nat.add_right_cancel h

/-- The start over a used store is the start over the empty store with later tags and addresses. -/
theorem State.start_displaced (store : Store) :
    (State.start .empty).Relabeled store.displacement .zero (.start store) where
  tag k := by simp [State.start, Store.empty, Store.displacement, Nat.add_comm]
  cell k := by simp [State.start, Store.empty, Store.displacement, Nat.add_comm]
  kept address := by
    have hnone : store.cells[address + store.cells.size]? = none :=
      Array.getElem?_eq_none (Nat.le_add_left _ _)
    simp only [Store.displacement, State.start, Store.kept?, hnone]
    rfl
  current := rfl
  profile := (Counters.zero_merge _).symm

/-- Whatever is in the store, the value of a program takes the same work. -/
theorem profile_evalProgram (fuel : Nat) (setting : Setting) (root : Expr) (store : Store) :
    ((evalProgram fuel setting root).report store).profile =
      ((evalProgram fuel setting root).report .empty).profile := by
  have hn := eval_relabeled store.displacement .zero fuel
  have hprofile := (hn setting .empty root).profile_eq (State.start_displaced store)
  rwa [Counters.zero_merge] at hprofile

/-- Whatever is in the store, the text of a program's value takes the same work. -/
theorem profile_runProgram (fuel : Nat) (config : Config) (root : Expr) (store : Store) :
    ((runProgram fuel config root).report store).profile =
      ((runProgram fuel config root).report .empty).profile := by
  have hn := eval_relabeled store.displacement .zero fuel
  have hrel := (relabelKinship store.displacement config.setting).program_related (W := ())
    config.printDepth root
  have hrun := run_relabeled hn (compare_relabeled hn fuel) (programPlan_isStandard _ root) hrel
  have hprofile := hrun.profile_eq (State.start_displaced store)
  rw [Counters.zero_merge] at hprofile
  rw [runProgram_eq_run]
  exact hprofile

end PolicyEval
