import Mathlib.Algebra.BigOperators.Group.List.Basic
import Mathlib.Algebra.GroupWithZero.Nat
import PolicyEval.Proofs.Cells.Once
import PolicyEval.Proofs.Sharing.Request
import PolicyEval.Proofs.Totals.Displacement

/-!
# The totals of a session

A session adds up what its evaluations and runs did.  An evaluation does the same work whatever
happened before it, so the totals are the sum of what each call reports on its own; they do not
depend on the order of the calls, and what is done with kept values in between adds nothing.

* `Counters.total` — the totals of several evaluations.
* `Session.alone` — what a call counts in a run of its own.
* `Session.totals_perform_of_isCall`, `Session.totals_perform_of_not_isCall` — what one request adds
  to the totals.
* `Session.totals_eq_sum` — the totals after any requests.
-/

namespace PolicyEval

/-! ## Sums of counters -/

namespace Counters

/-- The five counts. -/
def counts : List (Counters → UInt64) := [expressions, calls, prims, forced, cons]

/-- The totals of several evaluations. -/
def total (profiles : List Counters) : Counters := profiles.foldr merge zero

theorem count_merge {count : Counters → UInt64} (h : count ∈ counts) (c d : Counters) :
    count (c.merge d) = count c + count d := by
  simp only [counts, List.mem_cons, List.not_mem_nil, or_false] at h
  rcases h with rfl | rfl | rfl | rfl | rfl <;> rfl

theorem count_zero {count : Counters → UInt64} (h : count ∈ counts) : count zero = 0 := by
  simp only [counts, List.mem_cons, List.not_mem_nil, or_false] at h
  rcases h with rfl | rfl | rfl | rfl | rfl <;> rfl

/-- Each count of the totals is the sum of that count, modulo the size of a word. -/
theorem toNat_count_total {count : Counters → UInt64} (h : count ∈ counts)
    (profiles : List Counters) :
    (count (total profiles)).toNat =
      (profiles.map fun c => (count c).toNat).sum % 2 ^ 64 := by
  induction profiles with
  | nil =>
      rw [total, List.foldr_nil, count_zero h]
      rfl
  | cons c profiles ih =>
      rw [total] at ih
      rw [total, List.foldr_cons, count_merge h, UInt64.toNat_add, ih, List.map_cons, List.sum_cons,
        Nat.add_mod_mod]

/-- The depth of the totals is the greatest depth. -/
theorem maxDepth_total (profiles : List Counters) :
    (total profiles).maxDepth = (profiles.map maxDepth).foldr max 0 := by
  induction profiles with
  | nil => rfl
  | cons c profiles ih =>
      rw [total] at ih
      rw [total, List.foldr_cons, List.map_cons, List.foldr_cons, ← ih]
      rfl

/-- The order does not matter. -/
theorem total_perm {profiles profiles' : List Counters} (h : profiles.Perm profiles') :
    total profiles = total profiles' := by
  induction h with
  | nil => rfl
  | cons c _ ih => simp only [total, List.foldr_cons] at ih ⊢; rw [ih]
  | swap c d profiles =>
      simp only [total, List.foldr_cons]
      rw [← merge_assoc, merge_comm d c, merge_assoc]
  | trans _ _ ih ih' => exact ih.trans ih'

end Counters

/-! ## What requests add -/

/-- Whether the request is an evaluation or a run, which the session counts. -/
def Request.isCall : Request → Bool
  | .evaluate .. | .run _ => true
  | _ => false

namespace Session

/-- What a call counts in a run of its own, which starts with nothing in the store and ends with a
value or without one.  Other requests are no runs and count nothing. -/
def alone (config : Config) : Nat × Request → Counters
  | (fuel, .evaluate program _) => ((evalProgram fuel config.setting program).report .empty).profile
  | (fuel, .run program) => ((runProgram fuel config program).report .empty).profile
  | _ => .zero

/-- What a session that counts answers when it is asked for its totals after some requests. -/
def totalsAfter (config : Config) (requests : List (Nat × Request)) : Reply :=
  (((start config true).after requests).perform 0 .totals).2

section

variable {fuel : Nat} {s : Session}

theorem totals_put (into : Option String) (v : Value) : (s.put into v).totals = s.totals := by
  cases into <;> rfl

theorem totals_yielded (into : Option String) (r : Report Value) :
    (s.yielded into r).1.totals = s.totals := by
  unfold yielded
  cases r.result with
  | ok v => exact totals_put into v
  | error stop => rfl

theorem totals_answers {α : Type} (body : Eval α) (reply : α → Reply) :
    (s.answers body reply).1.totals = s.totals := by
  simp only [answers]
  cases (body.report s.store).result <;> rfl

theorem totals_withSlot {slot : String} {next : Value → Session × Reply}
    (h : ∀ v, (next v).1.totals = s.totals) : (s.withSlot slot next).1.totals = s.totals := by
  unfold withSlot
  cases s.slot? slot with
  | none => rfl
  | some v => exact h v

theorem totals_withClosure {slot : String} {next : Env → Session × Reply}
    (h : ∀ ρ, (next ρ).1.totals = s.totals) : (s.withClosure slot next).1.totals = s.totals :=
  totals_withSlot fun v => by
    cases v with
    | closure tag lambda ρ => exact h ρ
    | int | bool | prim | nil | cons => rfl

theorem totals_withCell {slot : String} {next : Thunk → Thunk → Session × Reply}
    (h : ∀ x y, (next x y).1.totals = s.totals) : (s.withCell slot next).1.totals = s.totals :=
  totals_withSlot fun v => by
    cases v with
    | cons tag x y => exact h x y
    | int | bool | prim | nil | closure => rfl

/-- What is done with kept values adds nothing. -/
theorem totals_perform_of_not_isCall {r : Request} (h : r.isCall = false) :
    (s.perform fuel r).1.totals = s.totals := by
  cases r with
  | evaluate | run => cases h
  | policy | totals | drop => rfl
  | evaluateUnder => exact totals_yielded _ _
  | literal => exact totals_put _ _
  | cons head tail into =>
      refine totals_withSlot fun x => totals_withSlot fun y => ?_
      split
      · exact totals_put _ _
      · rfl
  | head | tail => exact totals_withCell fun _ _ => totals_yielded _ _
  | inspect => exact totals_withSlot fun _ => rfl
  | render => exact totals_withSlot fun _ => totals_answers _ _
  | equals => exact totals_withSlot fun _ => totals_withSlot fun _ => totals_answers _ _
  | binary => exact totals_withSlot fun _ => totals_withSlot fun _ => totals_yielded _ _
  | unary | prim => exact totals_withSlot fun _ => totals_yielded _ _
  | captures => exact totals_withClosure fun _ => rfl
  | resolve slot name into =>
      refine totals_withClosure fun ρ => ?_
      cases ρ.lookupText name with
      | none => rfl
      | some x => exact totals_yielded _ _

theorem totals_evaluate (program : Expr) (into : Option String) :
    (s.perform fuel (.evaluate program into)).1.totals = s.totals.map fun totals =>
      totals.merge ((evalProgram fuel s.config.setting program).report s.store).profile :=
  totals_yielded _ _

theorem totals_run (program : Expr) :
    (s.perform fuel (.run program)).1.totals = s.totals.map fun totals =>
      totals.merge ((runProgram fuel s.config program).report s.store).profile := by
  simp only [perform]
  cases ((runProgram fuel s.config program).report s.store).result <;> rfl

/-- A call adds what it counts alone, whatever is in the store and however the call ends. -/
theorem totals_perform_of_isCall {r : Request} (h : r.isCall = true) :
    (s.perform fuel r).1.totals =
      s.totals.map fun totals => totals.merge (alone s.config (fuel, r)) := by
  cases r with
  | evaluate program into => rw [totals_evaluate, alone, profile_evalProgram]
  | run program => rw [totals_run, alone, profile_runProgram]
  | _ => cases h

end

/-- The totals after any requests: those before, and what the calls count alone. -/
theorem totals_after (s : Session) (requests : List (Nat × Request)) :
    (s.after requests).totals = s.totals.map fun totals => totals.merge
      (.total ((requests.filter fun r => r.2.isCall).map (alone s.config))) := by
  induction requests generalizing s with
  | nil =>
      simp only [after, List.filter_nil, List.map_nil, Counters.total, List.foldr_nil,
        Counters.merge_zero, Option.map_id']
  | cons request requests ih =>
      obtain ⟨fuel, r⟩ := request
      rw [after, ih, config_perform]
      cases hcall : r.isCall with
      | false =>
          rw [totals_perform_of_not_isCall hcall]
          simp only [List.filter_cons, hcall, Bool.false_eq_true, if_false]
      | true =>
          rw [totals_perform_of_isCall hcall, Option.map_map]
          simp only [List.filter_cons, hcall, if_true, List.map_cons, Counters.total,
            List.foldr_cons, Function.comp_def, Counters.merge_assoc]

theorem totalsAfter_eq (config : Config) (requests : List (Nat × Request)) :
    totalsAfter config requests =
      .totals (some (.total ((requests.filter fun r => r.2.isCall).map (alone config)))) := by
  have htotals : ((start config true).after requests).totals =
      some (.total ((requests.filter fun r => r.2.isCall).map (alone config))) := by
    rw [totals_after]
    exact congrArg some (Counters.zero_merge _)
  exact congrArg Reply.totals htotals

/-- The totals that a session answers: each count is the sum of that count over the runs of its
calls, each alone, modulo the size of a word, and the depth is the greatest of theirs.  A fresh
session answers what its only call counted.  So other requests add nothing, and the same calls in
another order, among other requests, give the same totals. -/
theorem totals_eq_sum (config : Config) (requests : List (Nat × Request)) :
    let calls := requests.filter fun r => r.2.isCall
    (∃ totals, totalsAfter config requests = .totals (some totals) ∧
      (∀ count ∈ Counters.counts, (count totals).toNat =
        (calls.map fun call => (count (alone config call)).toNat).sum % 2 ^ 64) ∧
      totals.maxDepth = (calls.map fun call => (alone config call).maxDepth).foldr max 0) ∧
    (∀ call ∈ calls, totalsAfter config [call] = .totals (some (alone config call))) ∧
    ∀ requests' : List (Nat × Request), (requests'.filter fun r => r.2.isCall).Perm calls →
      totalsAfter config requests' = totalsAfter config requests := by
  intro calls
  refine ⟨⟨_, totalsAfter_eq config requests, fun count hcount => ?_, ?_⟩, fun call hcall => ?_,
    fun requests' hperm => ?_⟩
  · rw [Counters.toNat_count_total hcount, List.map_map]
    rfl
  · rw [Counters.maxDepth_total, List.map_map]
    rfl
  · have hcounted : call.2.isCall = true := (List.mem_filter.1 hcall).2
    simp only [totalsAfter_eq, List.filter_cons, hcounted, if_true, List.filter_nil,
      List.map_singleton, Counters.total, List.foldr_cons, List.foldr_nil, Counters.merge_zero]
  · rw [totalsAfter_eq, totalsAfter_eq, Counters.total_perm (hperm.map (alone config))]

/-- Under lazy lists, `cons(1 + 1, null)` is evaluated and its head forced, and
`(map x to x + 1)(cons?(null))` fails twice.  Each failing run calls a closure and a primitive, and
both are in the totals; the head is not.  In the opposite order, where the head is asked for before
there is a list, the totals are the same. -/
theorem totals_eq_sum_failing :
    let place : Place := ⟨0, ⟨0, 0⟩⟩
    let x : Name := ⟨1, "x"⟩
    let sum : Expr := .binary place .add (.int place 1) (.int place 1)
    let list : Expr := .call place (.prim place .cons) [sum, .null place]
    let successor : Expr :=
      .map place [⟨x, ⟨0, 0⟩⟩] (.binary place .add (.ident place x) (.int place 1))
    let failing : Expr :=
      .call place successor [.call place (.prim place .isCons) [.null place]]
    let config := Config.ofPolicy ⟨.need, .need⟩
    let requests : List (Nat × Request) :=
      [(9, .evaluate failing none), (9, .evaluate list (some "xs")), (9, .head "xs" none),
        (9, .run failing)]
    ((runProgram 9 config failing).report .empty).result =
        .error (.fault ⟨.typeMismatch (.binary .add) (.boolean false), some ⟨0, 0⟩⟩) ∧
      alone config (9, .evaluate list (some "xs")) = ⟨2, 0, 1, 0, 1, 2⟩ ∧
      alone config (9, .run failing) = ⟨8, 1, 1, 1, 0, 5⟩ ∧
      ∃ totals, totalsAfter config requests = .totals (some totals) ∧
        (Counters.counts.map fun count => (count totals).toNat) = [18, 2, 3, 2, 1] ∧
        totals.maxDepth = 5 ∧
        totalsAfter config requests.reverse = .totals (some totals) := by
  intro place x sum list successor failing config requests
  obtain ⟨⟨totals, htotals, hcounts, hdepth⟩, -, horder⟩ := totals_eq_sum config requests
  refine ⟨by decide +kernel, by decide +kernel, by decide +kernel, totals, htotals,
    (List.map_congr_left hcounts).trans (by decide +kernel), hdepth.trans (by decide +kernel), ?_⟩
  rw [← htotals]
  refine horder _ ?_
  rw [List.filter_reverse]
  exact List.reverse_perm _

end Session

end PolicyEval
