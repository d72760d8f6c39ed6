import PolicyEval.Proofs.Policy.Delivery
import PolicyEval.Proofs.Policy.Lifting
import PolicyEval.Proofs.Sharing.Completeness

/-!
# Success does not depend on the policy

A program that succeeds under the eager policy succeeds under every policy, with the same text, if
the nesting is not limited.  The converse fails: a policy that delays may never evaluate what fails
or runs forever.

The way goes through the account that has no store.  The account follows the eager run, lifting
carries what it yields over to the account of any other policy, and the run of that policy follows
its account.

* `delivers_of_eager` — what the eager policy delivers, every policy delivers.
-/

namespace PolicyEval

/-- A program that succeeds under the eager policy, whatever the limit of nesting, succeeds without
a limit under every policy, with the same text. -/
theorem delivers_of_eager {printDepth : Nat} {limit : Option Nat} {store : Store} {root : Expr}
    {text : String} (h : Delivers ⟨⟨.eager, limit⟩, printDepth⟩ store root text) (policy : Policy)
    (store' : Store) : Delivers ⟨⟨policy, none⟩, printDepth⟩ store' root text := by
  obtain ⟨fuel, s, hrun⟩ := h.exists_run
  have hyields := Pairing.program_yields (Pairing.same_follows ⟨.eager, limit⟩) hrun
  have hrel := (liftKinship limit ⟨policy, none⟩).program_related (W := ()) printDepth root
  obtain ⟨text', rfl, hlifted⟩ := hyields.lift hrel [] 0
  exact delivers_of_settles (program_settles hlifted (.inr rfl) store')

/-- A closure is compared with itself and put into a list: every policy prints what the eager one
prints within four levels. -/
theorem delivers_of_eager_closures :
    let place : Place := ⟨0, ⟨0, 0⟩⟩
    let f : Binder := ⟨⟨0, "f"⟩, ⟨0, 0⟩⟩
    let x : Binder := ⟨⟨1, "x"⟩, ⟨0, 0⟩⟩
    let call (head tail : Expr) : Expr := .call place (.prim place .cons) [head, tail]
    let program : Expr := .letIn place [(f, .map place [x] (.ident place x.name))]
      (call (.binary place .eq (.ident place f.name) (.ident place f.name))
        (call (.ident place f.name) (.null place)))
    Delivers ⟨⟨.eager, some 4⟩, 5⟩ .empty program "(true (closure: map x to x))" ∧
      Delivers ⟨⟨⟨.need, .name⟩, none⟩, 5⟩ .empty program "(true (closure: map x to x))" := by
  intro place f x call program
  have heager : Delivers ⟨⟨.eager, some 4⟩, 5⟩ .empty program "(true (closure: map x to x))" :=
    delivers_of_result 9 (by decide +kernel)
  exact ⟨heager, delivers_of_eager heager ⟨.need, .name⟩ .empty⟩

end PolicyEval
