import PolicyEval.Proofs.Eval.Ending
import PolicyEval.Proofs.Eval.Evaluated
import PolicyEval.Proofs.Eval.Realm
import PolicyEval.Proofs.Policy.Delivery

/-!
# A limit of nesting makes evaluation total

A limit bounds how deep evaluations are nested, not how many there are.  Still every evaluation
ends under a limit, as long as comparing does: an expression asks for finitely many evaluations, and
each of them has one level less to go.  Comparing is the one loop without a bound of its own.  It
ends if all data are evaluated, since each step leaves fewer parts, and it does not matter in a
program that compares nothing.

* `Realm.run_ends` — a plan ends if its evaluations do.
* `Realm.eval_ends` — every evaluation under a limit ends.
* `Fails` — with enough fuel a program fails.
* `delivers_or_fails` — under a limit every program delivers a text or fails, if the policy is eager
  or the program compares nothing.
-/

namespace PolicyEval

/-! ## Evaluations in a realm -/

namespace Realm

/-- The store belongs to the realm, and evaluations are nested `depth` levels deep. -/
structure At (R : Realm) (depth : Nat) (s : State) : Prop where
  store : s.store.Belongs R
  depth : s.depth.current = depth

/-- A result has the property `post`, and evaluation goes on in the realm, on the same level. -/
def Continues (R : Realm) (depth : Nat) {α : Type} (post : α → Prop) :
    EStateM.Result Stop State α → Prop
  | .ok a s => R.At depth s ∧ post a
  | .error .. => True

/-- From every state on a level, evaluating an expression of the realm ends. -/
def EvalEnds (R : Realm) (depth : Nat) : Prop :=
  ∀ s, R.At depth s → ∀ ρ e, ρ.Belongs R → R.HasExpr e →
    Ends (fun n _ => eval n R.setting ρ e) s (R.Continues depth (Value.Belongs R))

variable {R : Realm} {depth : Nat} {s : State}

theorem At.of_cells (h : R.At depth s) {store : Store} (hcells : store.cells = s.store.cells)
    (counters : Counters) : R.At depth ⟨store, s.depth, counters⟩ :=
  ⟨h.store.of_cells hcells, h.depth⟩

theorem keep_continues (hs : R.At depth s) {v : Value} (hv : v.Belongs R) {address : Nat}
    (haddress : R.base ≤ address) :
    R.Continues depth (Value.Belongs R) (Eval.keep address v s) := by
  rw [Eval.keep_apply]
  cases hkept : s.store.kept? address with
  | some kept => exact ⟨hs, hs.store.kept address kept haddress hkept⟩
  | none => exact ⟨⟨hs.store.keep hv address, hs.depth⟩, hv⟩

section

variable (heval : R.EvalEnds depth)
include heval

theorem suspension_ends (hs : R.At depth s) {q : Suspension} (hq : q.Belongs R) :
    Ends (fun n _ => q.run (eval n)) s (R.Continues depth (Value.Belongs R)) := by
  obtain ⟨setting, ρ, e⟩ := q
  simp only [Suspension.Belongs] at hq
  obtain ⟨rfl, he, hρ⟩ := hq
  exact (heval _ (hs.of_cells rfl s.counters.countForced) ρ e hρ he).congr fun _ _ => rfl

theorem force_ends (hs : R.At depth s) {x : Thunk} (hx : x.Belongs R) :
    Ends (fun n _ => force (eval n) x) s (R.Continues depth (Value.Belongs R)) := by
  cases x with
  | ready v =>
      simp only [Thunk.Belongs] at hx
      exact .of_eq (fun _ _ => rfl) Eval.not_isStarved_ok ⟨hs, hx⟩
  | byName q =>
      simp only [Thunk.Belongs] at hx
      exact suspension_ends heval hs hx.2
  | byNeed address q =>
      simp only [Thunk.Belongs] at hx
      cases hkept : s.store.kept? address with
      | some v =>
          refine .of_eq (fun _ _ => Eval.force_of_kept hkept) Eval.not_isStarved_ok ?_
          exact ⟨hs, hs.store.kept address v hx.2.1 hkept⟩
      | none =>
          have hkeep : ∀ v s', R.Continues depth (Value.Belongs R) (.ok v s') →
              Ends (fun _ _ => Eval.keep address v) s' (R.Continues depth (Value.Belongs R)) := by
            rintro v s' ⟨hs', hv⟩
            refine .of_eq (fun _ _ => rfl) ?_ (keep_continues hs' hv hx.2.1)
            rw [Eval.keep_apply]
            cases s'.store.kept? address <;> exact Eval.not_isStarved_ok
          have hrun := (suspension_ends heval hs hx.2.2).bind hkeep fun _ _ _ => trivial
          exact hrun.congr fun _ _ => Eval.force_of_pending hkept

theorem delay_ends (hs : R.At depth s) {d : Discipline} (hd : R.Delays d) {ρ : Env}
    (hρ : ρ.Belongs R) {e : Expr} (he : R.HasExpr e) :
    Ends (fun n _ => delay (eval n) d R.setting ρ e) s (R.Continues depth (Thunk.Belongs R)) := by
  cases d with
  | value =>
      refine (heval s hs ρ e hρ he).bind ?_ fun _ _ _ => trivial
      rintro v s' ⟨hs', hv⟩
      refine .of_eq (fun _ _ => rfl) Eval.not_isStarved_ok ⟨hs', ?_⟩
      simpa only [Thunk.Belongs] using hv
  | name =>
      refine .of_eq (fun _ _ => rfl) Eval.not_isStarved_ok ⟨hs, ?_⟩
      simp only [Thunk.Belongs, Suspension.Belongs]
      exact ⟨hd, trivial, he, hρ⟩
  | need =>
      refine .of_eq (fun _ _ => rfl) Eval.not_isStarved_ok ⟨⟨hs.store.allocate, hs.depth⟩, ?_⟩
      simp only [Thunk.Belongs, Suspension.Belongs]
      exact ⟨hd, hs.store.base_le, trivial, he, hρ⟩

/-- A plan in the realm ends if the evaluations on its level do, and so does comparing. -/
theorem run_ends
    (hcompare : R.Compares → ∀ s, R.At depth s → ∀ todo : List Comparison,
      (∀ c ∈ todo, c.Belongs R) →
        Ends (fun n m => compareAll (eval n) m todo) s (R.Continues depth fun _ => True))
    {α : Type} {post : α → Prop} {p : Plan α} (hp : p.Abides R post) (hs : R.At depth s) :
    Ends (fun n m => p.run (eval n) m) s (R.Continues depth post) := by
  -- The induction is on how the plan keeps to the realm, one request after another.
  induction hp generalizing s with
  | done h => exact .of_eq (fun _ _ => rfl) Eval.not_isStarved_ok ⟨hs, h⟩
  | fail => exact .of_eq (fun _ _ => rfl) Eval.not_isStarved_fault trivial
  | @count step p _ _ ih =>
      exact (ih (hs.of_cells rfl (step s.counters))).congr fun _ _ => rfl
  | eval henv hexpr _ ih =>
      exact (heval s hs _ _ henv hexpr).bind (fun v s' h => ih v h.2 h.1) fun _ _ _ => trivial
  | force hthunk _ ih =>
      exact (force_ends heval hs hthunk).bind (fun v s' h => ih v h.2 h.1) fun _ _ _ => trivial
  | delay hdelays henv hexpr _ ih =>
      exact (delay_ends heval hs hdelays henv hexpr).bind (fun x s' h => ih x h.2 h.1)
        fun _ _ _ => trivial
  | @cell x y next hhead htail hlist _ ih =>
      have hv : (Value.cons s.store.nextTag x y).Belongs R := by
        simpa only [Value.Belongs] using ⟨hhead, htail, hlist⟩
      have htag : s.store.freshTag.2.cells = s.store.cells := rfl
      exact (ih _ hv (hs.of_cells htag s.counters)).congr fun _ _ => rfl
  | @closure lambda ρ next hexpr henv _ ih =>
      have hv : (Value.closure s.store.nextTag lambda ρ).Belongs R := by
        simpa only [Value.Belongs] using ⟨hexpr, henv⟩
      have htag : s.store.freshTag.2.cells = s.store.cells := rfl
      exact (ih _ hv (hs.of_cells htag s.counters)).congr fun _ _ => rfl
  | @extend ρ bindings next henv hbindings _ ih =>
      refine (ih _ (s.store.extend_belongs henv hbindings) ?_).congr fun _ _ => rfl
      exact hs.of_cells (s.store.extend_cells ρ bindings) s.counters
  | compare hcompares htodo _ ih =>
      exact (hcompare hcompares s hs _ htodo).bind (fun b s' h => ih b h.1) fun _ _ _ => trivial

end

/-- Under the eager policy comparing ends, and it changes nothing. -/
theorem compare_ends (heager : R.setting.policy = .eager) (hs : R.At depth s)
    {todo : List Comparison} (htodo : ∀ c ∈ todo, c.Belongs R) :
    Ends (fun n m => compareAll (eval n) m todo) s (R.Continues depth fun _ => True) := by
  obtain ⟨b, hb⟩ := compareAll_of_isEvaluated fun c hc => (htodo c hc).isEvaluated heager
  refine ⟨.ok b s, Eval.not_isStarved_ok, ⟨hs, trivial⟩, totalWeight todo + 1, fun n m _ hm => ?_⟩
  dsimp only
  rw [hb (eval n) m (by omega)]
  rfl

section

variable {limit : Nat} (hlimit : R.setting.maxDepth = some limit)
  (hcompares : R.Compares → R.setting.policy = .eager)
include hlimit hcompares

/-- Under a limit every evaluation ends. -/
theorem eval_ends (depth : Nat) : R.EvalEnds depth := by
  -- The induction is on the levels that are left below the limit.
  induction hleft : limit - depth generalizing depth with
  | zero =>
      intro s hs ρ e _ _
      have hreached : limit ≤ s.depth.current := by
        have hdepth := hs.depth
        omega
      exact .eval_exceeds ((Depth.enter_eq_error_iff _ _ limit).2 ⟨hlimit, hreached⟩) trivial
  | succ left ih =>
      intro s hs ρ e hρ he
      have hroom : s.depth.HasRoom R.setting.maxDepth := by
        intro n hn
        rw [hlimit] at hn
        cases hn
        have hdepth := hs.depth
        omega
      have hentered : R.At (depth + 1) s.entered := ⟨hs.store, congrArg (· + 1) hs.depth⟩
      have hbelow : R.EvalEnds (depth + 1) := ih (depth + 1) (by omega)
      refine .eval hroom ((run_ends hbelow ?_ (plan_abides hρ he) hentered).mono
        fun outcome h => ?_)
      · exact fun h s hs todo htodo => compare_ends (hcompares h) hs htodo
      · cases outcome with
        | error stop s' => trivial
        | ok v s' =>
            refine ⟨⟨h.1.store, ?_⟩, h.2⟩
            simp only [Depth.leave, h.1.depth, Nat.add_sub_cancel]

/-- Under a limit every program of the realm ends, with a text or a fault. -/
theorem program_ends (printDepth : Nat) {root : Expr} (hroot : R.HasExpr root) {store : Store}
    (hstore : store.Belongs R) :
    Ends (fun n m => (programPlan ⟨R.setting, printDepth⟩ root).run (eval n) m)
      (State.start store) fun _ => True := by
  have hstart : R.At 0 (State.start store) := ⟨hstore, rfl⟩
  have hrun := run_ends (eval_ends hlimit hcompares 0)
    (fun h s hs todo htodo => compare_ends (hcompares h) hs htodo)
    (program_abides printDepth hroot) hstart
  exact hrun.mono fun _ _ => trivial

end

end Realm

/-! ## Programs -/

/-- With enough fuel, a program that starts on a store fails with the given fault. -/
def Fails (config : Config) (store : Store) (root : Expr) (f : Fault) : Prop :=
  ∃ enough, ∀ fuel, enough ≤ fuel →
    ((runProgram fuel config root).report store).result = .error (.fault f)

/-- Whether the node is one of the two operators that compare values in full. -/
def Expr.isComparison : Expr → Bool
  | .binary _ .eq _ _ | .binary _ .ne _ _ => true
  | _ => false

/-- A program that ends delivers a text or fails. -/
theorem delivers_or_fails_of_ends {config : Config} {store : Store} {root : Expr}
    (h : Ends (fun n m => (programPlan config root).run (eval n) m) (State.start store)
      fun _ => True) :
    (∃ text, Delivers config store root text) ∨ ∃ f, Fails config store root f := by
  obtain ⟨outcome, hstarved, -, enough, hrun⟩ := h
  have hreport : ∀ fuel, enough ≤ fuel →
      runProgram fuel config root (State.start store) = outcome := by
    intro fuel hfuel
    rw [runProgram_eq_run]
    exact hrun fuel fuel hfuel hfuel
  cases outcome with
  | ok text s =>
      refine .inl ⟨text, enough, fun fuel hfuel => ?_⟩
      exact Eval.report_result_eq_ok.2 ⟨s, hreport fuel hfuel⟩
  | error stop s =>
      cases stop with
      | outOfFuel => exact absurd ⟨s, rfl⟩ hstarved
      | fault f =>
          refine .inr ⟨f, enough, fun fuel hfuel => ?_⟩
          unfold Eval.report
          rw [hreport fuel hfuel]

/-- The realm of a program: all expressions, or those that compare nothing. -/
def Realm.ofProgram (setting : Setting) (node : Expr → Prop) (store : Store) : Realm where
  setting := setting
  node := node
  name _ := True
  base := store.cells.size
  map_names _ _ _ := trivial
  letIn_names _ _ _ := trivial

/-- A limit of nesting makes evaluation total: whatever the program, the limit and the print depth,
a run delivers a text or fails, under the eager policy, and under every policy if no node of the
program is one of the operators `=` and `!=`. -/
theorem delivers_or_fails (policy : Policy) (limit printDepth : Nat) (store : Store) (root : Expr)
    (h : policy = .eager ∨ ∀ e ∈ root.postorder, e.isComparison = false) :
    (∃ text, Delivers ⟨⟨policy, some limit⟩, printDepth⟩ store root text) ∨
      ∃ f, Fails ⟨⟨policy, some limit⟩, printDepth⟩ store root f := by
  apply delivers_or_fails_of_ends
  rcases h with rfl | hfree
  · let R := Realm.ofProgram ⟨.eager, some limit⟩ (fun _ => True) store
    exact Realm.program_ends (R := R) rfl (fun _ => rfl) printDepth (fun _ _ => trivial)
      (Store.belongs_start rfl)
  · let R := Realm.ofProgram ⟨policy, some limit⟩ (fun e => e.isComparison = false) store
    refine Realm.program_ends (R := R) rfl ?_ printDepth hfree (Store.belongs_start rfl)
    rintro ⟨place, op, left, right, rfl | rfl, hnode⟩ <;> cases hnode

/-- The program `(map x to x(x))(map x to x(x))` goes on forever without a limit.  It compares
nothing, so it ends under the limit 3, whatever is evaluated when. -/
theorem delivers_or_fails_selfApplication :
    let place : Place := ⟨0, ⟨0, 0⟩⟩
    let x : Binder := ⟨⟨0, "x"⟩, ⟨0, 0⟩⟩
    let twice : Expr := .map place [x] (.call place (.ident place x.name) [.ident place x.name])
    let program : Expr := .call place twice [twice]
    let config : Config := ⟨⟨⟨.need, .name⟩, some 3⟩, 10⟩
    (∀ e ∈ program.postorder, e.isComparison = false) ∧
      ((∃ text, Delivers config .empty program text) ∨ ∃ f, Fails config .empty program f) := by
  intro place x twice program config
  have hfree : ∀ e ∈ program.postorder, e.isComparison = false := by decide
  exact ⟨hfree, delivers_or_fails ⟨.need, .name⟩ 3 10 .empty program (.inr hfree)⟩

end PolicyEval
