import PolicyEval.Proofs.Eval.Composition
import PolicyEval.Proofs.Eval.Standard

/-!
# What a computation is charged

The counts of a profile are words, which start again at zero when they overflow.  The toll of a
computation is what it counts before any of that: a natural number, taken along the states that the
computation itself goes through.  As long as the toll fits into a word it is what the profile shows.

* `Gauge` — one of the five counts.
* `Plan.toll`, `compareToll`, `evalToll` — the tolls of computations.
* `runToll` — the toll of a program.
* `read_profile` — a profile shows the toll, less whole turns of the word.
-/

namespace PolicyEval

/-- One of the five counts of a profile. -/
inductive Gauge where
  | expressions | calls | prims | forced | cons
deriving DecidableEq

namespace Gauge

/-- What the counters show. -/
def read : Gauge → Counters → UInt64
  | expressions, c => c.expressions
  | calls, c => c.calls
  | prims, c => c.prims
  | forced, c => c.forced
  | cons, c => c.cons

/-- How much a way to count adds to counters that show nothing. -/
def weight (g : Gauge) (step : Counters → Counters) : Nat := (g.read (step .zero)).toNat

/-- The five ways to count add as much to any counters. -/
theorem read_step (g : Gauge) {step : Counters → Counters} (h : Counters.IsStep step)
    (c : Counters) : g.read (step c) = g.read c + UInt64.ofNat (g.weight step) := by
  unfold weight
  rw [UInt64.ofNat_toNat]
  cases h <;> cases g <;> simp [read, Counters.zero, Counters.countExpression, Counters.countCall,
    Counters.countPrim, Counters.countForced, Counters.countCons]

end Gauge

/-! ## Tolls -/

/-- What a computation is charged, by the state in which it starts. -/
abbrev Toll := State → Nat

/-- The toll of a computation that goes on with the result of another one. -/
def Toll.andThen {α : Type} (first : Toll) (body : Eval α) (next : α → Toll) : Toll := fun s =>
  first s +
    match body s with
    | .ok a s' => next a s'
    | .error _ _ => 0

theorem Toll.andThen_of_ok {α : Type} {first : Toll} {body : Eval α} {next : α → Toll}
    {s s' : State} {a : α} (h : body s = .ok a s') :
    first.andThen body next s = first s + next a s' := by
  simp only [andThen, h]

theorem Toll.andThen_of_error {α : Type} {first : Toll} {body : Eval α} {next : α → Toll}
    {s s' : State} {stop : Stop} (h : body s = .error stop s') :
    first.andThen body next s = first s := by
  simp only [andThen, h, Nat.add_zero]

section

variable (g : Gauge) (ev : Evaluator) (fare : Setting → Env → Expr → Toll)

/-- The toll of evaluating a suspended expression. -/
def Suspension.toll : Suspension → Toll
  | ⟨setting, env, e⟩ => fun s =>
    g.weight Counters.countForced + fare setting env e { s with counters := s.counters.countForced }

/-- The toll of forcing a thunk; a kept result is free. -/
def forceToll : Thunk → Toll
  | .ready _ => fun _ => 0
  | .byName q => q.toll g fare
  | .byNeed address q => fun s =>
    match s.store.kept? address with
    | some _ => 0
    | none => q.toll g fare s

theorem forceToll_of_kept {address : Nat} {q : Suspension} {s : State} {v : Value}
    (h : s.store.kept? address = some v) : forceToll g fare (.byNeed address q) s = 0 := by
  simp only [forceToll, h]

theorem forceToll_of_pending {address : Nat} {q : Suspension} {s : State}
    (h : s.store.kept? address = none) :
    forceToll g fare (.byNeed address q) s = q.toll g fare s := by
  simp only [forceToll, h]

/-- The toll of delaying an expression. -/
def delayToll (d : Discipline) (setting : Setting) (env : Env) (e : Expr) : Toll :=
  match d with
  | .value => fare setting env e
  | .name | .need => fun _ => 0

/-- The toll of following a plan. -/
def Plan.toll (loop : Nat) (tollAll : List Comparison → Toll) {α : Type} : Plan α → Toll
  | done _ | fail _ => fun _ => 0
  | count step next => fun s =>
    g.weight step + next.toll loop tollAll { s with counters := step s.counters }
  | eval setting env e next =>
    Toll.andThen (fare setting env e) (ev setting env e) fun v => (next v).toll loop tollAll
  | force thunk next =>
    Toll.andThen (forceToll g fare thunk) (PolicyEval.force ev thunk) fun v =>
      (next v).toll loop tollAll
  | delay d setting env e next =>
    Toll.andThen (delayToll fare d setting env e) (PolicyEval.delay ev d setting env e) fun x =>
      (next x).toll loop tollAll
  | cell head tail next => fun s =>
    (next (.cons s.store.nextTag head tail)).toll loop tollAll
      { s with store := s.store.freshTag.2 }
  | closure lambda env next => fun s =>
    (next (.closure s.store.nextTag lambda env)).toll loop tollAll
      { s with store := s.store.freshTag.2 }
  | extend env bindings next => fun s =>
    (next (s.store.extend env bindings).1).toll loop tollAll
      { s with store := (s.store.extend env bindings).2 }
  | compare todo next =>
    Toll.andThen (tollAll todo) (compareAll ev loop todo) fun b => (next b).toll loop tollAll

/-- The toll of comparing. -/
def compareToll : Nat → List Comparison → Toll
  | 0, _ => fun _ => 0
  | loop + 1, todo => (stepPlan Comparison.identical todo).toll g ev fare loop (compareToll loop)

end

/-- The toll of evaluating an expression. -/
def evalToll (g : Gauge) : Nat → Setting → Env → Expr → Toll
  | 0, _, _, _ => fun _ => 0
  | fuel + 1, setting, env, e => fun s =>
    match s.depth.enter setting.maxDepth with
    | .error _ => 0
    | .ok depth =>
      (Plan.count Counters.countExpression (e.plan setting env)).toll g (eval fuel)
        (evalToll g fuel) fuel (compareToll g (eval fuel) (evalToll g fuel) fuel) { s with depth }

/-- The toll of following a plan with some fuel for evaluating and some for comparing. -/
def Plan.tollWith (g : Gauge) (fuel loop : Nat) {α : Type} (p : Plan α) : Toll :=
  p.toll g (PolicyEval.eval fuel) (evalToll g fuel) loop
    (compareToll g (PolicyEval.eval fuel) (evalToll g fuel) loop)

/-- The toll of a program. -/
def runToll (g : Gauge) (fuel : Nat) (config : Config) (root : Expr) : Toll :=
  (programPlan config root).tollWith g fuel fuel

theorem evalToll_of_hasRoom (g : Gauge) {fuel : Nat} {setting : Setting} {s : State}
    (h : s.depth.HasRoom setting.maxDepth) (ρ : Env) (e : Expr) :
    evalToll g (fuel + 1) setting ρ e s =
      (Plan.count Counters.countExpression (e.plan setting ρ)).tollWith g fuel fuel
        { s with depth := s.depth.deeper } := by
  simp only [evalToll, Depth.enter_eq_ok.2 ⟨h, rfl⟩, Plan.tollWith]

section

variable {g : Gauge} {n m : Nat} {s s' : State} {α : Type}

theorem Plan.tollWith_eval {setting : Setting} {ρ : Env} {e : Expr} {next : Value → Plan α}
    {v : Value} (h : PolicyEval.eval n setting ρ e s = .ok v s') :
    (Plan.eval setting ρ e next).tollWith g n m s =
      evalToll g n setting ρ e s + (next v).tollWith g n m s' :=
  Toll.andThen_of_ok h

theorem Plan.tollWith_force {x : Thunk} {next : Value → Plan α} {v : Value}
    (h : PolicyEval.force (PolicyEval.eval n) x s = .ok v s') :
    (Plan.force x next).tollWith g n m s =
      forceToll g (evalToll g n) x s + (next v).tollWith g n m s' :=
  Toll.andThen_of_ok h

theorem Plan.tollWith_delay {d : Discipline} {setting : Setting} {ρ : Env} {e : Expr}
    {next : Thunk → Plan α} {x : Thunk}
    (h : PolicyEval.delay (PolicyEval.eval n) d setting ρ e s = .ok x s') :
    (Plan.delay d setting ρ e next).tollWith g n m s =
      delayToll (evalToll g n) d setting ρ e s + (next x).tollWith g n m s' :=
  Toll.andThen_of_ok h

theorem Plan.tollWith_compare {todo : List Comparison} {next : Bool → Plan α} {b : Bool}
    (h : compareAll (PolicyEval.eval n) m todo s = .ok b s') :
    (Plan.compare todo next).tollWith g n m s =
      compareToll g (PolicyEval.eval n) (evalToll g n) m todo s + (next b).tollWith g n m s' :=
  Toll.andThen_of_ok h

end

/-! ## Tolls and profiles -/

/-- However the computation ends, its toll was added to the counters. -/
def Eval.Tallies (g : Gauge) {α : Type} (body : Eval α) (toll : Toll) : Prop :=
  ∀ s, g.read (body.after s).counters = g.read s.counters + UInt64.ofNat (toll s)

namespace Eval.Tallies

variable {g : Gauge} {α β : Type}

/-- A computation that counts nothing. -/
theorem free {body : Eval α} (h : ∀ s, (body.after s).counters = s.counters) :
    body.Tallies g fun _ => 0 := by
  intro s
  rw [h s]
  simp

theorem bind {first : Eval α} {next : α → Eval β} {toll : Toll} {tollNext : α → Toll}
    (hfirst : first.Tallies g toll) (hnext : ∀ a, (next a).Tallies g (tollNext a)) :
    (first >>= next).Tallies g (toll.andThen first tollNext) := by
  intro s
  have h := hfirst s
  cases hrun : first s with
  | error stop s' =>
      rw [after_bind_error hrun, Toll.andThen_of_error hrun]
      rwa [after, hrun] at h
  | ok a s' =>
      rw [after, hrun] at h
      dsimp only at h
      rw [after_bind_ok hrun, Toll.andThen_of_ok hrun, hnext a s', h, UInt64.ofNat_add,
        UInt64.add_assoc]

theorem count {step : Counters → Counters} (hstep : Counters.IsStep step) {next : Eval α}
    {toll : Toll} (h : next.Tallies g toll) :
    (Eval.count step >>= fun _ => next).Tallies g fun s =>
      g.weight step + toll { s with counters := step s.counters } := by
  intro s
  have hrun : Eval.count step s = .ok () { s with counters := step s.counters } := rfl
  rw [after_bind_ok hrun, h, g.read_step hstep, UInt64.ofNat_add, UInt64.add_assoc]

end Eval.Tallies

section

variable {g : Gauge} {ev : Evaluator} {fare : Setting → Env → Expr → Toll}
  (hev : ∀ setting ρ e, (ev setting ρ e).Tallies g (fare setting ρ e))
include hev

theorem force_tallies (x : Thunk) : (force ev x).Tallies g (forceToll g fare x) := by
  have hrun : ∀ q : Suspension, (q.run ev).Tallies g (q.toll g fare) := by
    rintro ⟨setting, ρ, e⟩
    exact .count .forced (hev setting ρ e)
  cases x with
  | ready v => exact .free fun s => rfl
  | byName q => exact hrun q
  | byNeed address q =>
      intro s
      cases hkept : s.store.kept? address with
      | some v =>
          rw [forceToll_of_kept g fare hkept, Eval.after, Eval.force_of_kept hkept]
          simp
      | none =>
          have hkeep : ∀ v, (Eval.keep address v).Tallies g fun _ => 0 := by
            refine fun v => .free fun s => ?_
            rw [Eval.after, Eval.keep_apply]
            cases s.store.kept? address <;> rfl
          -- Keeping the result comes after the run and adds nothing, even if another came first.
          have h := (hrun q).bind hkeep s
          rw [forceToll_of_pending g fare hkept]
          rw [Eval.after, Eval.force_of_pending hkept, ← Eval.after, h]
          unfold Toll.andThen
          cases q.run ev s <;> rfl

theorem delay_tallies (d : Discipline) (setting : Setting) (ρ : Env) (e : Expr) :
    (delay ev d setting ρ e).Tallies g (delayToll fare d setting ρ e) := by
  cases d with
  | name | need => exact .free fun s => rfl
  | value =>
      intro s
      have h := hev setting ρ e s
      unfold Eval.after at h ⊢
      simp only [delay, delayToll, Eval.bind_apply]
      cases hrun : ev setting ρ e s with
      | ok v s' | error stop s' =>
          rw [hrun] at h
          exact h

theorem run_tallies {loop : Nat} {fareAll : List Comparison → Toll}
    (hcompare : ∀ todo, (compareAll ev loop todo).Tallies g (fareAll todo)) {α : Type}
    {p : Plan α} (hp : p.IsStandard) :
    (p.run ev loop).Tallies g (p.toll g ev fare loop fareAll) := by
  induction p with
  | done | fail => exact .free fun s => rfl
  | count step next ih => exact .count hp.1 (ih hp.2)
  | eval setting ρ e next ih => exact (hev setting ρ e).bind fun v => ih v (hp v)
  | force x next ih => exact (force_tallies hev x).bind fun v => ih v (hp v)
  | delay d setting ρ e next ih =>
      exact (delay_tallies hev d setting ρ e).bind fun x => ih x (hp x)
  | cell x y next ih => exact fun s => ih _ (hp _) { s with store := s.store.freshTag.2 }
  | closure lambda ρ next ih => exact fun s => ih _ (hp _) { s with store := s.store.freshTag.2 }
  | extend ρ bindings next ih =>
      exact fun s => ih _ (hp _) { s with store := (s.store.extend ρ bindings).2 }
  | compare todo next ih => exact (hcompare todo).bind fun b => ih b (hp b)

theorem compare_tallies (loop : Nat) (todo : List Comparison) :
    (compareAll ev loop todo).Tallies g (compareToll g ev fare loop todo) := by
  induction loop generalizing todo with
  | zero => exact .free fun s => rfl
  | succ loop ih =>
      rw [compareAll_succ]
      exact run_tallies hev ih (stepPlan_isStandard _ todo)

end

/-- Evaluations add their toll to the counters. -/
theorem eval_tallies (g : Gauge) (fuel : Nat) (setting : Setting) (ρ : Env) (e : Expr) :
    (eval fuel setting ρ e).Tallies g (evalToll g fuel setting ρ e) := by
  induction fuel generalizing setting ρ e with
  | zero => exact .free fun s => rfl
  | succ fuel ih =>
      intro s
      have hbody := run_tallies ih (compare_tallies ih fuel)
        (p := .count Counters.countExpression (e.plan setting ρ))
        ⟨.expression, e.plan_isStandard setting ρ⟩
      rw [eval_succ]
      -- Entering a level and leaving it count nothing; without room the toll is zero.
      unfold evalToll Eval.after Eval.within
      cases henter : s.depth.enter setting.maxDepth with
      | error n => simp
      | ok depth =>
          have h := hbody { s with depth }
          dsimp only at h ⊢
          cases hrun : (Plan.count Counters.countExpression (e.plan setting ρ)).run (eval fuel) fuel
            { s with depth } with
          | ok v s' | error stop s' =>
              rw [Eval.after, hrun] at h
              exact h

/-- A profile shows the toll of the program, less whole turns of the word. -/
theorem read_profile (g : Gauge) (fuel : Nat) (config : Config) (root : Expr) (store : Store) :
    g.read ((runProgram fuel config root).report store).profile =
      UInt64.ofNat (runToll g fuel config root (State.start store)) := by
  have hplan := programPlan_isStandard config root
  have heval := eval_tallies g fuel
  have h := run_tallies heval (compare_tallies heval fuel) hplan (State.start store)
  have hstart : g.read (State.start store).counters = 0 := by cases g <;> rfl
  have hprofile : ∀ s : State, g.read s.profile = g.read s.counters := by
    intro s
    cases g <;> rfl
  rw [hstart, UInt64.zero_add, ← runProgram_eq_run] at h
  unfold Eval.report
  unfold Eval.after at h
  cases hrun : runProgram fuel config root (State.start store) with
  | ok text s | error stop s =>
      rw [hrun] at h
      exact (hprofile s).trans h

end PolicyEval
