import PolicyEval.Proofs.Policy.Delivery
import PolicyEval.Proofs.Policy.Unshared
import PolicyEval.Proofs.Sharing.Completeness
import PolicyEval.Proofs.Sharing.Soundness

/-!
# Evaluating once instead of at every use

What is evaluated once need not be evaluated again.  So a program that succeeds if something is
evaluated at every use succeeds, within the same limit of nesting, if it is evaluated at its first
use only.  This holds on the axis of arguments, and on the axis of lists unless arguments are
evaluated once.

There it fails, though only at the limit.  Comparing stops at identity, and what keeps its parts is
identical more often, so a comparison may look into less.  A name that it would have evaluated along
the way is then evaluated for the first time later, where there may be no room for it.

* `delivers_of_metered`, `delivers_of_unmetered` — more results are kept, with and without a meter.
* `delivers_once` — the refinement on both axes, and what is left of it where it fails.
* `not_delivers_once` — a program for which it fails.
-/

namespace PolicyEval

/-- On an axis, the discipline stays or evaluating at every use becomes evaluating once. -/
def Discipline.Shares (before after : Discipline) : Prop :=
  after = before ∨ before = .name ∧ after = .need

/-- The pairing of an evaluation with an account that evaluates once what the evaluation may run at
every use. -/
def Pairing.sharing (before after : Setting) : Pairing := ⟨before, after, True⟩

section

variable {limit : Option Nat} {before after : Policy}

theorem Pairing.sharing_follows (hargs : before.args.Shares after.args)
    (hlists : before.lists.Shares after.lists) (limit limit' : Option Nat) :
    (Pairing.sharing ⟨before, limit⟩ ⟨after, limit'⟩).Follows false := by
  refine ⟨?_, nofun⟩
  rintro axis (rfl | rfl)
  · exact hargs.imp_right fun h => ⟨trivial, h⟩
  · exact hlists.imp_right fun h => ⟨trivial, h⟩

variable {printDepth : Nat} {store : Store} {root : Expr} {text : String}

/-- If arguments are evaluated at every use, what is delivered does not depend on whether parts of
lists are kept. -/
theorem delivers_nameName
    (h : Delivers ⟨⟨⟨.name, .need⟩, limit⟩, printDepth⟩ store root text) :
    Delivers ⟨⟨⟨.name, .name⟩, limit⟩, printDepth⟩ store root text := by
  obtain ⟨fuel, s, hrun⟩ := h.exists_run
  exact delivers_of_result fuel (Eval.report_result_eq_ok.2 (runProgram_strips hrun))

/-- A program that succeeds without keeping any result succeeds, within the same limit, if results
are kept. -/
theorem delivers_of_metered (h : Delivers ⟨⟨before, limit⟩, printDepth⟩ store root text)
    (hargs : before.args.Shares after.args) (hrerun : before.args ≠ .need)
    (hlists : before.lists.Shares after.lists) (hrerun' : before.lists ≠ .need) (store' : Store) :
    Delivers ⟨⟨after, limit⟩, printDepth⟩ store' root text := by
  obtain ⟨fuel, s, hrun⟩ := h.exists_run
  have hfollows : (Pairing.sharing ⟨before, limit⟩ ⟨after, limit⟩).Follows true := by
    refine ⟨(Pairing.sharing_follows hargs hlists limit limit).axis, fun _ => ?_⟩
    rintro axis (rfl | rfl)
    · exact hrerun
    · exact hrerun'
  have hyields := Pairing.program_yields hfollows hrun
  refine delivers_of_settles (program_settles hyields ?_ store')
  cases limit with
  | none => exact .inr rfl
  | some n =>
      rintro k ⟨⟩
      exact Nat.le_of_eq (Nat.zero_add n)

/-- A program that succeeds succeeds without a limit if more results are kept; under the limit it
does so or fails there. -/
theorem delivers_of_unmetered (h : Delivers ⟨⟨before, limit⟩, printDepth⟩ store root text)
    (hargs : before.args.Shares after.args) (hlists : before.lists.Shares after.lists)
    (store' : Store) :
    Delivers ⟨⟨after, none⟩, printDepth⟩ store' root text ∧
      (Delivers ⟨⟨after, limit⟩, printDepth⟩ store' root text ∨
        FailsAtLimit ⟨⟨after, limit⟩, printDepth⟩ store' root) := by
  obtain ⟨fuel, s, hrun⟩ := h.exists_run
  have hyields := fun limit' =>
    Pairing.program_yields (Pairing.sharing_follows hargs hlists limit limit') hrun
  refine ⟨delivers_of_settles (program_settles (hyields none) (.inr rfl) store'), ?_⟩
  exact (delivers_or_failsAtLimit (program_settles (hyields limit) (.inl rfl) store')).imp_right
    And.right

/-- Evaluating once refines evaluating at every use.

On the axis of arguments, and on the axis of lists if arguments are not evaluated once, a program
delivers the same text within the same limit.  On the axis of lists with arguments that are
evaluated once it delivers the same text without a limit; within the same limit it does so, too, or
fails at the limit. -/
theorem delivers_once (printDepth : Nat) (limit : Option Nat) (store store' : Store) (root : Expr)
    (text : String) :
    (∀ lists, Delivers ⟨⟨⟨.name, lists⟩, limit⟩, printDepth⟩ store root text →
      Delivers ⟨⟨⟨.need, lists⟩, limit⟩, printDepth⟩ store' root text) ∧
    (∀ args, args ≠ .need → Delivers ⟨⟨⟨args, .name⟩, limit⟩, printDepth⟩ store root text →
      Delivers ⟨⟨⟨args, .need⟩, limit⟩, printDepth⟩ store' root text) ∧
    (Delivers ⟨⟨⟨.need, .name⟩, limit⟩, printDepth⟩ store root text →
      Delivers ⟨⟨⟨.need, .need⟩, none⟩, printDepth⟩ store' root text ∧
        (Delivers ⟨⟨⟨.need, .need⟩, limit⟩, printDepth⟩ store' root text ∨
          FailsAtLimit ⟨⟨⟨.need, .need⟩, limit⟩, printDepth⟩ store' root)) := by
  have hstay : ∀ d : Discipline, d.Shares d := fun _ => .inl rfl
  have honce : Discipline.name.Shares .need := .inr ⟨rfl, rfl⟩
  refine ⟨fun lists h => ?_, fun args hargs h => ?_, fun h => ?_⟩
  · cases lists with
    | value | name =>
        refine delivers_of_metered h ?_ nofun ?_ nofun store'
        · exact honce
        · exact hstay _
    | need =>
        -- No part of a list is used twice, so the run keeps nothing that it asks for again.
        have hstripped := delivers_nameName h
        exact delivers_of_metered hstripped honce nofun honce nofun store'
  · exact delivers_of_metered h (hstay args) hargs honce nofun store'
  · exact delivers_of_unmetered h (hstay .need) honce store'

/-- A list whose head is used twice: both premises about it hold, and the head may be kept on either
axis. -/
theorem delivers_once_head :
    let place : Place := ⟨0, ⟨0, 0⟩⟩
    let x : Binder := ⟨⟨0, "x"⟩, ⟨0, 0⟩⟩
    let head : Expr := .call place (.prim place .first) [.ident place x.name]
    let program : Expr := .letIn place
      [(x, .call place (.prim place .cons) [.int place 2, .null place])]
      (.binary place .mul head head)
    let config (policy : Policy) : Config := ⟨⟨policy, some 6⟩, 3⟩
    (Delivers (config ⟨.name, .need⟩) .empty program "4" ∧
        Delivers (config ⟨.need, .need⟩) .empty program "4") ∧
      Delivers (config ⟨.value, .name⟩) .empty program "4" ∧
        Delivers (config ⟨.value, .need⟩) .empty program "4" := by
  intro place x head program config
  have hargs : Delivers (config ⟨.name, .need⟩) .empty program "4" :=
    delivers_of_result 9 (by decide +kernel)
  have hlists : Delivers (config ⟨.value, .name⟩) .empty program "4" :=
    delivers_of_result 9 (by decide +kernel)
  have honce := delivers_once 3 (some 6) .empty .empty program "4"
  exact ⟨⟨hargs, honce.1 .need hargs⟩, hlists, honce.2.1 .value nofun hlists⟩

/-- With arguments that are evaluated once, keeping the parts of lists can exceed a limit that was
enough without: `big` is evaluated by the comparison if both uses of `first(x)` make a list cell of
their own, and below four sums if they are one and the same. -/
theorem not_delivers_once :
    let place : Place := ⟨0, ⟨0, 0⟩⟩
    let big : Binder := ⟨⟨0, "big"⟩, ⟨0, 0⟩⟩
    let x : Binder := ⟨⟨1, "x"⟩, ⟨0, 0⟩⟩
    let more (e : Expr) : Expr := .binary place .add (.int place 1) e
    let list (e : Expr) : Expr := .call place (.prim place .cons) [e, .null place]
    let head : Expr := .call place (.prim place .first) [.ident place x.name]
    let program : Expr := .letIn place [(big, more (more (more (more (.int place 1)))))]
      (.letIn place [(x, list (list (.ident place big.name)))]
        (.cond place (.binary place .eq head head)
          (more (more (more (more (.ident place big.name))))) (.int place 0)))
    Delivers ⟨⟨⟨.need, .name⟩, some 10⟩, 100⟩ .empty program "9" ∧
      ¬Delivers ⟨⟨⟨.need, .need⟩, some 10⟩, 100⟩ .empty program "9" := by
  intro place big x more list head program
  have hfault : ((runProgram 40 ⟨⟨⟨.need, .need⟩, some 10⟩, 100⟩ program).report .empty).result =
      .error (.fault ⟨.recursionLimit 10, some ⟨0, 0⟩⟩) := by decide +kernel
  exact ⟨delivers_of_result 40 (by decide +kernel), not_delivers_of_fault hfault⟩

end

end PolicyEval
