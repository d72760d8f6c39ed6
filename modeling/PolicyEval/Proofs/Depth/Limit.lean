import PolicyEval.Proofs.Depth.Recast
import PolicyEval.Proofs.Scope.Safety

/-!
# Limits, counters and results

Guards do not change results.  The deepest level of a run without a limit is the least limit under
which the run ends in the same way: under a smaller one it fails, and not otherwise than at the
limit.  Whether a session counts can be seen in its totals only.

* `runProgram_confines` — a run under a limit goes on like one without, or fails at the limit.
* `Session.perform_withoutTotals` — a request has the same effect whether or not it is counted.
* `limit_exact` — the limit is exact, counters have no effect, and the depth is balanced.
-/

namespace PolicyEval

/-! ## Programs under a limit -/

theorem State.Matches.start (limit : Nat) (policy : Policy) (store : Store) :
    (State.start store).Matches store.cells.size limit policy (State.start store) where
  tag := rfl
  size := rfl
  base_le := Nat.le_refl _
  kept address haddress := by
    have hnone : store.kept? address = none := by
      simp only [Store.kept?, Array.getElem?_eq_none haddress, Option.join_none]
    simp only [State.start, hnone]
    exact .none
  depth := rfl
  counters := rfl

/-- A program under a limit goes on like without, or fails at the limit. -/
theorem runProgram_confines (base limit fuel printDepth : Nat) (policy : Policy) (root : Expr) :
    Confines base limit policy Eq (runProgram fuel ⟨⟨policy, none⟩, printDepth⟩ root)
      (runProgram fuel ⟨⟨policy, some limit⟩, printDepth⟩ root) := by
  rw [runProgram_eq_run, runProgram_eq_run]
  have hn : EvalConfines base limit policy fuel := eval_confines fuel
  have hrel := (recastKinship base limit policy).program_related (W := ()) printDepth root
  exact run_confines hn (compare_confines hn fuel) hrel

section

variable {α : Type} {body : Eval α} {store : Store}

theorem Eval.report_profile_maxDepth :
    (body.report store).profile.maxDepth = (body.after (State.start store)).depth.deepest := by
  unfold Eval.report Eval.after
  cases body (State.start store) <;> rfl

theorem Eval.report_result_ne_outOfFuel (h : (body.report store).result ≠ .error .outOfFuel) :
    ¬Eval.IsStarved (body (State.start store)) := by
  rintro ⟨s, hs⟩
  unfold Eval.report at h
  rw [hs] at h
  exact h rfl

theorem Eval.report_result_eq_error {stop : Stop} {s : State}
    (h : body (State.start store) = .error stop s) : (body.report store).result = .error stop := by
  unfold Eval.report
  rw [h]

/-- Runs that end in the same way are reported in the same way. -/
theorem Agrees.report_eq {base limit : Nat} {policy : Policy} {body' : Eval α}
    (h : Agrees base limit policy Eq (body (State.start store)) (body' (State.start store))) :
    (body'.report store).result = (body.report store).result ∧
      (body'.report store).profile = (body.report store).profile := by
  have hprofile : ∀ {s s' : State}, s.Matches base limit policy s' → s'.profile = s.profile := by
    intro s s' hs
    simp only [State.profile, hs.depth, hs.counters]
  unfold Eval.report
  cases hrun : body (State.start store) <;> cases hrun' : body' (State.start store) <;>
    simp only [hrun, hrun', Agrees] at h ⊢
  · exact ⟨congrArg _ h.1.symm, hprofile h.2⟩
  · exact ⟨congrArg _ h.1.symm, hprofile h.2⟩

end

/-! ## Sessions that count and sessions that do not -/

/-- The reply of a session that does not count. -/
def Reply.withoutTotals : Reply → Reply
  | .totals _ => .totals none
  | reply => reply

namespace Session

/-- The session, not counting any more. -/
def withoutTotals (s : Session) : Session := { s with totals := none }

theorem put_withoutTotals (s : Session) (into : Option String) (v : Value) :
    s.withoutTotals.put into v = (s.put into v).withoutTotals := by
  cases into <;> rfl

theorem stopped_withoutTotals (stop : Stop) : (stopped stop).withoutTotals = stopped stop := by
  cases stop <;> rfl

/-- The effect of a request and its reply, but for the totals. -/
def effect (after : Session × Reply) : Session × Reply :=
  (after.1.withoutTotals, after.2.withoutTotals)

theorem yielded_withoutTotals (s : Session) (into : Option String) (r : Report Value) :
    s.withoutTotals.yielded into r = effect (s.yielded into r) := by
  unfold yielded effect
  cases r.result with
  | ok v => exact Prod.ext (put_withoutTotals { s with store := r.store } into v) rfl
  | error stop => exact Prod.ext rfl (stopped_withoutTotals stop).symm

theorem answers_withoutTotals {α : Type} (s : Session) (body : Eval α) (reply : α → Reply)
    (hreply : ∀ a, (reply a).withoutTotals = reply a) :
    s.withoutTotals.answers body reply = effect (s.answers body reply) := by
  unfold answers effect
  dsimp only [withoutTotals]
  cases (body.report s.store).result with
  | ok a => exact Prod.ext rfl (hreply a).symm
  | error stop => exact Prod.ext rfl (stopped_withoutTotals stop).symm

theorem withSlot_withoutTotals (s : Session) (slot : String) {next next' : Value → Session × Reply}
    (hnext : ∀ v, next' v = effect (next v)) :
    s.withoutTotals.withSlot slot next' = effect (s.withSlot slot next) := by
  unfold withSlot
  have hslot : s.withoutTotals.slot? slot = s.slot? slot := rfl
  rw [hslot]
  cases s.slot? slot with
  | none => rfl
  | some v => exact hnext v

theorem withCell_withoutTotals (s : Session) (slot : String)
    {next next' : Thunk → Thunk → Session × Reply}
    (hnext : ∀ head tail, next' head tail = effect (next head tail)) :
    s.withoutTotals.withCell slot next' = effect (s.withCell slot next) := by
  refine s.withSlot_withoutTotals slot fun v => ?_
  cases v with
  | cons tag head tail => exact hnext head tail
  | int | bool | prim | closure | nil => rfl

theorem withClosure_withoutTotals (s : Session) (slot : String) {next next' : Env → Session × Reply}
    (hnext : ∀ env, next' env = effect (next env)) :
    s.withoutTotals.withClosure slot next' = effect (s.withClosure slot next) := by
  refine s.withSlot_withoutTotals slot fun v => ?_
  cases v with
  | closure tag lambda env => exact hnext env
  | int | bool | prim | cons | nil => rfl

/-- A request has the same effect whether or not the session counts. -/
theorem perform_withoutTotals (fuel : Nat) (s : Session) (r : Request) :
    s.withoutTotals.perform fuel r = effect (s.perform fuel r) := by
  -- Only programs are counted; whatever else is asked leaves the totals alone.
  cases r with
  | policy | totals | drop => rfl
  | evaluate program into => exact yielded_withoutTotals (s.addProfile _) into _
  | run program =>
      unfold perform effect
      dsimp only [withoutTotals]
      cases ((runProgram fuel s.config program).report s.store).result with
      | ok text => rfl
      | error stop => exact Prod.ext rfl (stopped_withoutTotals stop).symm
  | evaluateUnder policy program into => exact s.yielded_withoutTotals into _
  | literal l into =>
      exact Prod.ext (put_withoutTotals { s with store := (s.store.ofLiteral l).2 } into _) rfl
  | cons head tail into =>
      refine s.withSlot_withoutTotals head fun x => s.withSlot_withoutTotals tail fun y => ?_
      split
      · exact Prod.ext (put_withoutTotals { s with store := (s.store.eagerCons x y).2 } into _) rfl
      · rfl
  | head slot into =>
      exact s.withCell_withoutTotals slot fun head _ => s.yielded_withoutTotals into _
  | tail slot into =>
      exact s.withCell_withoutTotals slot fun _ tail => s.yielded_withoutTotals into _
  | inspect slot => exact s.withSlot_withoutTotals slot fun v => rfl
  | render slot printDepth =>
      exact s.withSlot_withoutTotals slot fun v => s.answers_withoutTotals _ _ fun _ => rfl
  | equals left right =>
      exact s.withSlot_withoutTotals left fun x => s.withSlot_withoutTotals right fun y =>
        s.answers_withoutTotals _ _ fun _ => rfl
  | binary op left right into =>
      exact s.withSlot_withoutTotals left fun x => s.withSlot_withoutTotals right fun y =>
        s.yielded_withoutTotals into _
  | unary op slot into =>
      exact s.withSlot_withoutTotals slot fun v => s.yielded_withoutTotals into _
  | prim p slot into =>
      exact s.withSlot_withoutTotals slot fun v => s.yielded_withoutTotals into _
  | captures slot => exact s.withClosure_withoutTotals slot fun env => rfl
  | resolve slot name into =>
      refine s.withClosure_withoutTotals slot fun env => ?_
      cases env.lookupText name with
      | none => rfl
      | some thunk => exact s.yielded_withoutTotals into _

/-- A session that does not count replies as one that does, but for the totals. -/
theorem replies_withoutTotals (s : Session) (requests : List (Nat × Request)) :
    s.withoutTotals.replies requests = (s.replies requests).map Reply.withoutTotals := by
  induction requests generalizing s with
  | nil => rfl
  | cons request requests ih =>
      obtain ⟨fuel, r⟩ := request
      simp only [replies, List.map_cons]
      rw [perform_withoutTotals, ← ih]
      rfl

end Session

/-! ## Guards do not change results -/

/-- Guards do not change results.

The deepest level of a run without a limit is exact: under a limit that is not smaller the run ends
in the same way and counts the same, and under a smaller one it fails at that limit.  What was
counted before has no effect on an evaluation or a force, and a session that does not count replies
as one that does, but for the totals.  However an evaluation or a force ends, the depth is the same
afterwards as before. -/
theorem limit_exact :
    (∀ (fuel printDepth : Nat) (policy : Policy) (store : Store) (root : Expr),
      let free := (runProgram fuel ⟨⟨policy, none⟩, printDepth⟩ root).report store
      free.result ≠ .error .outOfFuel → ∀ limit,
        let guarded := (runProgram fuel ⟨⟨policy, some limit⟩, printDepth⟩ root).report store
        (free.profile.maxDepth ≤ limit →
          guarded.result = free.result ∧ guarded.profile = free.profile) ∧
        (limit < free.profile.maxDepth →
          ∃ span, guarded.result = .error (.fault ⟨.recursionLimit limit, span⟩))) ∧
    (∀ (fuel : Nat) (setting : Setting) (ρ : Env) (e : Expr) (x : Thunk),
      (eval fuel setting ρ e).IgnoresCounters ∧ (force (eval fuel) x).IgnoresCounters) ∧
    (∀ (config : Config) (requests : List (Nat × Request)),
      (Session.start config false).replies requests =
        ((Session.start config true).replies requests).map Reply.withoutTotals) ∧
    ∀ (fuel : Nat) (setting : Setting) (ρ : Env) (e : Expr) (x : Thunk) (s : State),
      ((eval fuel setting ρ e).after s).depth.current = s.depth.current ∧
        ((force (eval fuel) x).after s).depth.current = s.depth.current := by
  refine ⟨?_, fun fuel setting ρ e x => ?_, fun config requests => ?_,
    fun fuel setting ρ e x s => ?_⟩
  · intro fuel printDepth policy store root free hended limit guarded
    have hconfines := runProgram_confines store.cells.size limit fuel printDepth policy root
      (State.start store) (State.start store) (.start limit policy store) (Nat.zero_le limit)
      (Eval.report_result_ne_outOfFuel hended)
    rw [← Eval.report_profile_maxDepth] at hconfines
    rcases hconfines with ⟨hle, hagrees⟩ | ⟨hlt, span, s, hfails⟩
    · exact ⟨fun _ => hagrees.report_eq, fun hlt => absurd hle (Nat.not_le.2 hlt)⟩
    · refine ⟨fun hle => absurd hle (Nat.not_le.2 hlt), fun _ => ⟨span, ?_⟩⟩
      exact Eval.report_result_eq_error hfails
  · exact ⟨Eval.isCompositional_ignoresCounters.eval fuel setting ρ e,
      Eval.isCompositional_ignoresCounters.force fuel x⟩
  · exact (Session.start config true).replies_withoutTotals requests
  · exact ⟨(Eval.isCompositional_isBalanced.eval fuel setting ρ e s).1,
      (Eval.isCompositional_isBalanced.force fuel x s).1⟩

/-- The program `let x := 1 + 1; in x + 1 / 0` reaches its fifth level below its use of `x`, and
fails after that: under the limit 5 it fails in the same way, and under the limit 4 at the limit. -/
theorem limit_exact_division :
    let place : Place := ⟨0, ⟨0, 0⟩⟩
    let x : Binder := ⟨⟨0, "x"⟩, ⟨0, 0⟩⟩
    let binary (op : BinaryOp) (a b : Int) : Expr := .binary place op (.int place a) (.int place b)
    let program : Expr := .letIn place [(x, binary .add 1 1)]
      (.binary place .add (.ident place x.name) (binary .div 1 0))
    let policy : Policy := ⟨.need, .name⟩
    let failure : Except Stop String := .error (.fault ⟨.divisionByZero, some ⟨0, 0⟩⟩)
    ((runProgram 9 ⟨⟨policy, none⟩, 3⟩ program).report .empty).result = failure ∧
      ((runProgram 9 ⟨⟨policy, some 5⟩, 3⟩ program).report .empty).result = failure ∧
      ∃ span, ((runProgram 9 ⟨⟨policy, some 4⟩, 3⟩ program).report .empty).result =
        .error (.fault ⟨.recursionLimit 4, span⟩) := by
  intro place x binary program policy failure
  have hfree : ((runProgram 9 ⟨⟨policy, none⟩, 3⟩ program).report .empty).result = failure := by
    decide +kernel
  have hended : ((runProgram 9 ⟨⟨policy, none⟩, 3⟩ program).report .empty).result ≠
      .error .outOfFuel := by
    rw [hfree]
    simp [failure]
  have hdeepest :
      ((runProgram 9 ⟨⟨policy, none⟩, 3⟩ program).report .empty).profile.maxDepth = 5 := by
    decide +kernel
  have hexact := limit_exact.1 9 3 policy .empty program hended
  simp only [hdeepest, hfree] at hexact
  exact ⟨hfree, ((hexact 5).1 (Nat.le_refl 5)).1, (hexact 4).2 (Nat.lt_add_one 4)⟩

end PolicyEval
