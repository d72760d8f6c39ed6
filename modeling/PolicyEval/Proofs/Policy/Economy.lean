import PolicyEval.Proofs.Cost.Charge
import PolicyEval.Proofs.Cost.Payment
import PolicyEval.Proofs.Depth.Limit
import PolicyEval.Proofs.Policy.Refinement

/-!
# Evaluating once is not more work

A program that succeeds if something is evaluated at every use does not count more if it is
evaluated at its first use only: not more expressions, calls of closures and of primitives, forces
and list cells.  It does not nest deeper either, unless the parts of lists are what is evaluated
once, beside arguments that are.

There it may.  A comparison that stops at identity leaves a name alone that it would have evaluated,
and its first use may then come at a deeper level.

* `runToll_le` — the toll is not greater, whatever the limit and the fuel.
* `report_of_free`, `free_of_report` — a run under a limit, and the same run without.
* `work_le_of_once` — counts and nesting if evaluating at every use becomes evaluating once.
* `not_maxDepth_le_of_once` — a program that nests deeper.
-/

namespace PolicyEval

/-- On one axis, evaluating at every use becomes evaluating once. -/
inductive Policy.Once : Policy → Policy → Prop
  | args (lists : Discipline) : Once ⟨.name, lists⟩ ⟨.need, lists⟩
  | lists (args : Discipline) : Once ⟨args, .name⟩ ⟨args, .need⟩

theorem Policy.Once.shares {before after : Policy} (h : before.Once after) :
    before.args.Shares after.args ∧ before.lists.Shares after.lists := by
  cases h with
  | args lists => exact ⟨.inr ⟨rfl, rfl⟩, .inl rfl⟩
  | lists args => exact ⟨.inl rfl, .inr ⟨rfl, rfl⟩⟩

/-! ## Counts -/

section

variable {before after : Policy} {limit : Option Nat} {printDepth fuel : Nat} {store : Store}
  {root : Expr} {text : String}

/-- If more results are kept, the toll of a program that succeeds is not greater, whatever the limit
and the fuel. -/
theorem runToll_le (g : Gauge) (hargs : before.args.Shares after.args)
    (hlists : before.lists.Shares after.lists) {s : State}
    (hrun : runProgram fuel ⟨⟨before, limit⟩, printDepth⟩ root (State.start store) = .ok text s)
    (limit' : Option Nat) (fuel' : Nat) (store' : Store) :
    runToll g fuel' ⟨⟨after, limit'⟩, printDepth⟩ root (State.start store') ≤
      runToll g fuel ⟨⟨before, limit⟩, printDepth⟩ root (State.start store) := by
  obtain ⟨t, D, hbill, items, hlisted, hpaid⟩ :=
    Pairing.program_pays (Pairing.sharing_follows hargs hlists limit limit') g hrun
  obtain ⟨charged, hcharged, hle⟩ := program_charges hbill fuel' store'
  -- The bill stands between the two runs: one pays for all of it, the other for a part.
  have hsubset : charged ⊆ items := Finset.coe_subset.1 (hcharged.trans hlisted)
  calc runToll g fuel' ⟨⟨after, limit'⟩, printDepth⟩ root (State.start store')
      ≤ t + Item.total charged := hle
    _ ≤ t + Item.total items := Nat.add_le_add_left (Item.total_mono hsubset) t
    _ ≤ _ := hpaid

/-- A toll that is not greater is shown by a count that is not greater, if the greater one fits into
a word. -/
theorem read_profile_le (g : Gauge) {fuel fuel' : Nat} {config config' : Config}
    {store store' : Store}
    (hle : runToll g fuel' config' root (State.start store') ≤
      runToll g fuel config root (State.start store))
    (hfits : runToll g fuel config root (State.start store) < 2 ^ 64) :
    g.read ((runProgram fuel' config' root).report store').profile ≤
      g.read ((runProgram fuel config root).report store).profile := by
  rw [read_profile, read_profile, UInt64.le_iff_toNat_le, UInt64.toNat_ofNat_of_lt' hfits,
    UInt64.toNat_ofNat_of_lt' (Nat.lt_of_le_of_lt hle hfits)]
  exact hle

/-! ## Nesting -/

theorem ne_outOfFuel_of_ok {result : Except Stop String} (h : result = .ok text) :
    result ≠ .error .outOfFuel := by
  rw [h]
  simp

/-- With more fuel a run that ended is reported in the same way. -/
theorem report_eq_of_le {config : Config} {fuel' : Nat} (hfuel : fuel ≤ fuel')
    (h : ((runProgram fuel config root).report store).result ≠ .error .outOfFuel) :
    (runProgram fuel' config root).report store = (runProgram fuel config root).report store := by
  rcases runProgram_extends hfuel config root (State.start store) with hstarved | heq
  · exact absurd hstarved (Eval.report_result_ne_outOfFuel h)
  · unfold Eval.report
    rw [heq]

/-- A run that ends without a limit either stays within a limit, and is the same under it, or goes
beyond the limit, and fails there. -/
theorem report_confines {policy : Policy} (n : Nat)
    (h : ((runProgram fuel ⟨⟨policy, none⟩, printDepth⟩ root).report store).result ≠
      .error .outOfFuel) :
    let free := (runProgram fuel ⟨⟨policy, none⟩, printDepth⟩ root).report store
    let guarded := (runProgram fuel ⟨⟨policy, some n⟩, printDepth⟩ root).report store
    free.profile.maxDepth ≤ n ∧ guarded.result = free.result ∧ guarded.profile = free.profile ∨
      n < free.profile.maxDepth ∧ ∃ f, guarded.result = .error (.fault f) := by
  intro free guarded
  have hconfines := runProgram_confines store.cells.size n fuel printDepth policy root
    (State.start store) (State.start store) (.start n policy store) (Nat.zero_le n)
    (Eval.report_result_ne_outOfFuel h)
  rw [← Eval.report_profile_maxDepth] at hconfines
  rcases hconfines with ⟨hle, hagrees⟩ | ⟨hlt, span, s, hfails⟩
  · exact .inl ⟨hle, hagrees.report_eq⟩
  · exact .inr ⟨hlt, _, Eval.report_result_eq_error hfails⟩

/-- A run without a limit that stays within the limit is the same under the limit. -/
theorem report_of_free {policy : Policy} (limit : Option Nat)
    (hfree : ((runProgram fuel ⟨⟨policy, none⟩, printDepth⟩ root).report store).result = .ok text)
    (hlimit : ∀ n, limit = some n →
      ((runProgram fuel ⟨⟨policy, none⟩, printDepth⟩ root).report store).profile.maxDepth ≤ n) :
    ((runProgram fuel ⟨⟨policy, limit⟩, printDepth⟩ root).report store).result = .ok text ∧
      ((runProgram fuel ⟨⟨policy, limit⟩, printDepth⟩ root).report store).profile =
        ((runProgram fuel ⟨⟨policy, none⟩, printDepth⟩ root).report store).profile := by
  cases limit with
  | none => exact ⟨hfree, rfl⟩
  | some n =>
      rcases report_confines n (ne_outOfFuel_of_ok hfree) with ⟨-, hresult, hprofile⟩ | ⟨hlt, -⟩
      · exact ⟨hresult.trans hfree, hprofile⟩
      · exact absurd (hlimit n rfl) (Nat.not_le.2 hlt)

/-- A run that succeeds under a limit succeeds without, with the same profile, and stays within the
limit. -/
theorem free_of_report {policy : Policy}
    (h : ((runProgram fuel ⟨⟨policy, limit⟩, printDepth⟩ root).report store).result = .ok text) :
    ∃ enough, ∀ fuel', enough ≤ fuel' →
      ((runProgram fuel' ⟨⟨policy, none⟩, printDepth⟩ root).report store).result = .ok text ∧
      ((runProgram fuel' ⟨⟨policy, none⟩, printDepth⟩ root).report store).profile =
        ((runProgram fuel ⟨⟨policy, limit⟩, printDepth⟩ root).report store).profile ∧
      ∀ n, limit = some n →
        ((runProgram fuel ⟨⟨policy, limit⟩, printDepth⟩ root).report store).profile.maxDepth ≤
          n := by
  -- Without a limit the program delivers the same text; with enough fuel both runs have ended.
  obtain ⟨enough, hdelivers⟩ :=
    (delivers_of_unmetered (delivers_of_result fuel h) (.inl rfl) (.inl rfl) store).1
  refine ⟨max enough fuel, fun fuel' hfuel => ?_⟩
  have hfree := hdelivers fuel' (Nat.le_trans (Nat.le_max_left _ _) hfuel)
  have hsame := report_eq_of_le (Nat.le_trans (Nat.le_max_right enough fuel) hfuel)
    (ne_outOfFuel_of_ok h)
  rw [← hsame] at h ⊢
  cases limit with
  | none => exact ⟨hfree, rfl, by simp⟩
  | some n =>
      rcases report_confines n (ne_outOfFuel_of_ok hfree) with
        ⟨hle, -, hprofile⟩ | ⟨-, f, hfails⟩
      · refine ⟨hfree, hprofile.symm, ?_⟩
        rintro _ ⟨⟩
        rwa [hprofile]
      · rw [hfails] at h
        cases h

/-- If a program delivers under every limit after a change under which it delivers before, its runs
do not nest deeper after the change. -/
theorem maxDepth_le_of_delivers {store' : Store}
    (hdelivers : ∀ n, Delivers ⟨⟨before, some n⟩, printDepth⟩ store root text →
      Delivers ⟨⟨after, some n⟩, printDepth⟩ store' root text)
    (h : ((runProgram fuel ⟨⟨before, limit⟩, printDepth⟩ root).report store).result = .ok text) :
    ∃ enough, ∀ fuel', enough ≤ fuel' →
      ((runProgram fuel' ⟨⟨after, limit⟩, printDepth⟩ root).report store').profile.maxDepth ≤
        ((runProgram fuel ⟨⟨before, limit⟩, printDepth⟩ root).report store).profile.maxDepth := by
  obtain ⟨enough₁, hbefore⟩ := free_of_report h
  obtain ⟨hfree, hprofile, hlimit⟩ := hbefore enough₁ (Nat.le_refl _)
  generalize ((runProgram fuel ⟨⟨before, limit⟩, printDepth⟩ root).report store).profile = profile
    at hprofile hlimit ⊢
  -- Its own nesting is enough of a limit for the program, before the change and hence after it.
  have hwithin := (report_of_free (some profile.maxDepth) hfree
    (by rintro _ ⟨⟩; rw [hprofile])).1
  obtain ⟨enough₂, hafter⟩ := hdelivers _ (delivers_of_result enough₁ hwithin)
  obtain ⟨enough₃, hfree'⟩ := free_of_report (hafter enough₂ (Nat.le_refl _))
  refine ⟨enough₃, fun fuel' hfuel => ?_⟩
  obtain ⟨hresult, hprofile', hdeepest⟩ := hfree' fuel' hfuel
  have hle : ((runProgram fuel' ⟨⟨after, none⟩, printDepth⟩ root).report store').profile.maxDepth ≤
      profile.maxDepth := by
    rw [hprofile']
    exact hdeepest _ rfl
  have hguarded := report_of_free limit hresult
    fun n hn => Nat.le_trans hle (hlimit n hn)
  rw [hguarded.2]
  exact hle

/-- Evaluating once refines evaluating at every use within the same limit, unless the parts of lists
are what is evaluated once, beside arguments that are. -/
theorem Policy.Once.delivers (honce : before.Once after) (hother : before ≠ ⟨.need, .name⟩)
    (h : Delivers ⟨⟨before, limit⟩, printDepth⟩ store root text) (store' : Store) :
    Delivers ⟨⟨after, limit⟩, printDepth⟩ store' root text := by
  obtain ⟨hargs, hlists⟩ := honce.shares
  cases honce with
  | lists args =>
      have hrerun : args ≠ .need := fun heq => hother (by rw [heq])
      exact delivers_of_metered h hargs hrerun hlists (by simp) store'
  | args lists =>
      by_cases hneed : lists = .need
      · -- No part of a list is used twice, so the run keeps nothing that it asks for again.
        subst hneed
        exact delivers_of_metered (delivers_nameName h) hargs (by simp) (.inr ⟨rfl, rfl⟩) (by simp)
          store'
      · exact delivers_of_metered h hargs (by simp) hlists hneed store'

/-- If evaluating at every use becomes evaluating once, a program that succeeded ends, under the
same limit, and does not count more, as long as the counts of the first run fit into words.  It does
not nest deeper either, unless the parts of lists are what is evaluated once, beside arguments that
are. -/
theorem work_le_of_once (honce : before.Once after)
    (hbefore : ((runProgram fuel ⟨⟨before, limit⟩, printDepth⟩ root).report store).result =
      .ok text) (store' : Store) :
    ∃ enough, ∀ fuel', enough ≤ fuel' →
      let first := (runProgram fuel ⟨⟨before, limit⟩, printDepth⟩ root).report store
      let second := (runProgram fuel' ⟨⟨after, limit⟩, printDepth⟩ root).report store'
      second.result ≠ .error .outOfFuel ∧
      (∀ g : Gauge,
        runToll g fuel ⟨⟨before, limit⟩, printDepth⟩ root (State.start store) < 2 ^ 64 →
          g.read second.profile ≤ g.read first.profile) ∧
      (before ≠ ⟨.need, .name⟩ → second.profile.maxDepth ≤ first.profile.maxDepth) := by
  obtain ⟨hargs, hlists⟩ := honce.shares
  obtain ⟨s, hrun⟩ := Eval.report_result_eq_ok.1 hbefore
  have hdelivers := delivers_of_result fuel hbefore
  -- The second run succeeds or fails at the limit, so it ends.
  obtain ⟨enough₁, hends⟩ : ∃ enough, ∀ fuel', enough ≤ fuel' →
      ((runProgram fuel' ⟨⟨after, limit⟩, printDepth⟩ root).report store').result ≠
        .error .outOfFuel := by
    rcases (delivers_of_unmetered hdelivers hargs hlists store').2 with
      ⟨enough, hok⟩ | ⟨enough, hfails⟩
    · exact ⟨enough, fun fuel' hfuel => ne_outOfFuel_of_ok (hok fuel' hfuel)⟩
    · refine ⟨enough, fun fuel' hfuel => ?_⟩
      obtain ⟨f, n, hfault, -⟩ := hfails fuel' hfuel
      rw [hfault]
      simp
  -- How deep it nests is read off the limits under which it succeeds.
  obtain ⟨enough₂, hdepth⟩ : ∃ enough, ∀ fuel', enough ≤ fuel' → before ≠ ⟨.need, .name⟩ →
      ((runProgram fuel' ⟨⟨after, limit⟩, printDepth⟩ root).report store').profile.maxDepth ≤
        ((runProgram fuel ⟨⟨before, limit⟩, printDepth⟩ root).report store).profile.maxDepth := by
    by_cases hother : before = ⟨.need, .name⟩
    · exact ⟨0, fun fuel' _ hne => absurd hother hne⟩
    · obtain ⟨enough, hle⟩ :=
        maxDepth_le_of_delivers (fun n h => honce.delivers hother h store') hbefore
      exact ⟨enough, fun fuel' hfuel _ => hle fuel' hfuel⟩
  refine ⟨max enough₁ enough₂, fun fuel' hfuel => ⟨?_, fun g hfits => ?_, ?_⟩⟩
  · exact hends fuel' (Nat.le_trans (Nat.le_max_left _ _) hfuel)
  · exact read_profile_le g (runToll_le g hargs hlists hrun limit fuel' store') hfits
  · exact hdepth fuel' (Nat.le_trans (Nat.le_max_right _ _) hfuel)

end

/-- The square of a sum that is given to a function: if it is evaluated once instead of twice, three
expressions and one force fewer are counted, and the nesting is the same. -/
theorem work_le_of_once_square :
    let place : Place := ⟨0, ⟨0, 0⟩⟩
    let x : Binder := ⟨⟨0, "x"⟩, ⟨0, 0⟩⟩
    let sum : Expr := .binary place .add (.int place 1) (.int place 2)
    let square : Expr :=
      .map place [x] (.binary place .mul (.ident place x.name) (.ident place x.name))
    let program : Expr := .call place square [sum]
    ((runProgram 9 ⟨⟨⟨.name, .need⟩, some 5⟩, 3⟩ program).report .empty).result = .ok "9" ∧
      (∀ g : Gauge,
        runToll g 9 ⟨⟨⟨.name, .need⟩, some 5⟩, 3⟩ program (State.start .empty) < 2 ^ 64) ∧
      ∃ enough, ∀ fuel', enough ≤ fuel' →
        let first := (runProgram 9 ⟨⟨⟨.name, .need⟩, some 5⟩, 3⟩ program).report .empty
        let second := (runProgram fuel' ⟨⟨⟨.need, .need⟩, some 5⟩, 3⟩ program).report .empty
        second.result ≠ .error .outOfFuel ∧
          (∀ g : Gauge, g.read second.profile ≤ g.read first.profile) ∧
          second.profile.maxDepth ≤ first.profile.maxDepth := by
  intro place x sum square program
  have hfirst : ((runProgram 9 ⟨⟨⟨.name, .need⟩, some 5⟩, 3⟩ program).report .empty).result =
      .ok "9" := by decide +kernel
  have hfits : ∀ g : Gauge,
      runToll g 9 ⟨⟨⟨.name, .need⟩, some 5⟩, 3⟩ program (State.start .empty) < 2 ^ 64 := by
    intro g
    cases g <;> decide +kernel
  obtain ⟨enough, h⟩ := work_le_of_once (.args .need) hfirst .empty
  refine ⟨hfirst, hfits, enough, fun fuel' hfuel => ?_⟩
  obtain ⟨hends, hcounts, hdepth⟩ := h fuel' hfuel
  exact ⟨hends, fun g => hcounts g (hfits g), hdepth (by simp)⟩

/-- With arguments that are evaluated once, keeping the parts of lists can lead to deeper nesting:
`big` is evaluated by the comparison if both uses of `first(x)` make a list cell of their own, and
below four sums if they are one and the same. -/
theorem not_maxDepth_le_of_once :
    let place : Place := ⟨0, ⟨0, 0⟩⟩
    let big : Binder := ⟨⟨0, "big"⟩, ⟨0, 0⟩⟩
    let x : Binder := ⟨⟨1, "x"⟩, ⟨0, 0⟩⟩
    let more (e : Expr) : Expr := .binary place .add (.int place 1) e
    let list (e : Expr) : Expr := .call place (.prim place .cons) [e, .null place]
    let head : Expr := .call place (.prim place .first) [.ident place x.name]
    let program : Expr := .letIn place [(big, more (more (more (more (.int place 1)))))]
      (.letIn place [(x, list (list (.ident place big.name)))]
        (.cond place (.binary place .eq head head)
          (more (more (more (more (.ident place big.name))))) (.int place 0)))
    let config (lists : Discipline) : Config := ⟨⟨⟨.need, lists⟩, none⟩, 100⟩
    let first := (runProgram 40 (config .name) program).report .empty
    first.result = .ok "9" ∧
      (∀ g : Gauge, runToll g 40 (config .name) program (State.start .empty) < 2 ^ 64) ∧
      ∀ fuel', 40 ≤ fuel' →
        let second := (runProgram fuel' (config .need) program).report .empty
        second.result = .ok "9" ∧ ¬second.profile.maxDepth ≤ first.profile.maxDepth := by
  intro place big x more list head program config first
  have hfits : ∀ g : Gauge, runToll g 40 (config .name) program (State.start .empty) < 2 ^ 64 := by
    intro g
    cases g <;> decide +kernel
  have hdepth : first.profile.maxDepth = 10 := by decide +kernel
  refine ⟨by decide +kernel, hfits, fun fuel' hfuel => ?_⟩
  have hsecond : ((runProgram 40 (config .need) program).report .empty).result = .ok "9" := by
    decide +kernel
  have hdeeper : ((runProgram 40 (config .need) program).report .empty).profile.maxDepth = 13 := by
    decide +kernel
  have hsame := report_eq_of_le hfuel (ne_outOfFuel_of_ok hsecond)
  dsimp only
  rw [hsame, hsecond, hdeeper, hdepth]
  exact ⟨rfl, by decide⟩

end PolicyEval
