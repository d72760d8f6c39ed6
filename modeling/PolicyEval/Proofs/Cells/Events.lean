import PolicyEval.Proofs.Eval.Composition

/-!
# What happens to store cells

An evaluation leaves a log of what it does to store cells: it enters a cell to evaluate its
suspension and later has a result for it or stops, and it reads what a cell keeps.  The log is taken
along the states that the evaluation itself goes through, so it adds to an evaluation and does not
change it.

* `Event` — what can happen to a cell.
* `forceLog`, `Plan.log`, `compareLog`, `evalLog` — the logs of computations.
* `Life` — the events of a cell that is evaluated at most once with success.
-/

namespace PolicyEval

/-- What can happen to the store cell with an address. -/
inductive Event where
  /-- Its suspension is about to be evaluated. -/
  | enter (address : Nat) (q : Suspension)
  /-- The evaluation of its suspension stopped without a result. -/
  | stop (address : Nat) (stop : Stop)
  /-- The evaluation of its suspension had a result, which the cell keeps from now on. -/
  | settle (address : Nat) (v : Value)
  /-- The evaluation of its suspension had a result, but the cell kept another one by then. -/
  | clash (address : Nat) (kept : Value)
  /-- The result that it keeps was used. -/
  | read (address : Nat) (kept : Value)

/-- The address of the cell. -/
def Event.address : Event → Nat
  | enter address _ | stop address _ | settle address _ | clash address _ | read address _ => address

/-- The event is the start of an evaluation. -/
def Event.isEnter : Event → Bool
  | enter .. => true
  | _ => false

/-- The events of one cell. -/
def eventsOf (address : Nat) (events : List Event) : List Event :=
  events.filter fun event => event.address == address

theorem eventsOf_append (address : Nat) (events events' : List Event) :
    eventsOf address (events ++ events') = eventsOf address events ++ eventsOf address events' :=
  List.filter_append ..

theorem eventsOf_cons_self {event : Event} {address : Nat} (h : event.address = address)
    (events : List Event) : eventsOf address (event :: events) = event :: eventsOf address events :=
  List.filter_cons_of_pos (beq_iff_eq.2 h)

theorem eventsOf_cons_of_ne {event : Event} {address : Nat} (h : event.address ≠ address)
    (events : List Event) : eventsOf address (event :: events) = eventsOf address events :=
  List.filter_cons_of_neg fun heq => h (beq_iff_eq.1 heq)

theorem eventsOf_eq_nil {address : Nat} {events : List Event}
    (h : ∀ event ∈ events, event.address ≠ address) : eventsOf address events = [] :=
  List.filter_eq_nil_iff.2 fun event hevent heq => h event hevent (beq_iff_eq.1 heq)

theorem mem_eventsOf {address : Nat} {event : Event} {events : List Event} :
    event ∈ eventsOf address events ↔ event ∈ events ∧ event.address = address := by
  rw [eventsOf, List.mem_filter, beq_iff_eq]

/-! ## Logs -/

/-- The events of a computation, by the state in which it starts. -/
abbrev Log := State → List Event

/-- The log of a computation that goes on with the result of another one. -/
def Log.andThen {α : Type} (first : Log) (body : Eval α) (next : α → Log) : Log := fun s =>
  first s ++
    match body s with
    | .ok a s' => next a s'
    | .error _ _ => []

/-- The log of a computation without events that is followed by another one. -/
abbrev Log.after {α : Type} (body : Eval α) (next : α → Log) : Log :=
  Log.andThen (fun _ => []) body next

/-- What happens to a cell when the evaluation of its suspension has ended. -/
def arrival (address : Nat) : EStateM.Result Stop State Value → Event
  | .ok v s =>
    match s.store.kept? address with
    | some kept => .clash address kept
    | none => .settle address v
  | .error stop _ => .stop address stop

section

variable (ev : Evaluator) (trace : Setting → Env → Expr → Log)

/-- The log of evaluating a suspended expression. -/
def Suspension.log : Suspension → Log
  | ⟨setting, env, e⟩ => .after (Eval.count Counters.countForced) fun _ => trace setting env e

/-- The log of forcing a thunk. -/
def forceLog : Thunk → Log
  | .ready _ => fun _ => []
  | .byName q => q.log trace
  | .byNeed address q => fun s =>
    match s.store.kept? address with
    | some v => [.read address v]
    | none => .enter address q :: (q.log trace s ++ [arrival address (q.run ev s)])

theorem forceLog_of_kept {address : Nat} {q : Suspension} {s : State} {v : Value}
    (h : s.store.kept? address = some v) :
    forceLog ev trace (.byNeed address q) s = [.read address v] := by
  simp only [forceLog, h]

theorem forceLog_of_pending {address : Nat} {q : Suspension} {s : State}
    (h : s.store.kept? address = none) :
    forceLog ev trace (.byNeed address q) s =
      .enter address q :: (q.log trace s ++ [arrival address (q.run ev s)]) := by
  simp only [forceLog, h]

/-- The log of delaying an expression. -/
def delayLog (d : Discipline) (setting : Setting) (env : Env) (e : Expr) : Log :=
  match d with
  | .value => trace setting env e
  | .name | .need => fun _ => []

/-- The log of following a plan. -/
def Plan.log (loop : Nat) (traceAll : List Comparison → Log) {α : Type} : Plan α → Log
  | done _ | fail _ => fun _ => []
  | count step next => .after (Eval.count step) fun _ => next.log loop traceAll
  | eval setting env e next =>
    Log.andThen (trace setting env e) (ev setting env e) fun v => (next v).log loop traceAll
  | force thunk next =>
    Log.andThen (forceLog ev trace thunk) (PolicyEval.force ev thunk) fun v =>
      (next v).log loop traceAll
  | delay d setting env e next =>
    Log.andThen (delayLog trace d setting env e) (PolicyEval.delay ev d setting env e) fun x =>
      (next x).log loop traceAll
  | cell head tail next =>
    .after Eval.freshTag fun tag => (next (.cons tag head tail)).log loop traceAll
  | closure lambda env next =>
    .after Eval.freshTag fun tag => (next (.closure tag lambda env)).log loop traceAll
  | extend env bindings next =>
    .after (Eval.extend env bindings) fun inner => (next inner).log loop traceAll
  | compare todo next =>
    Log.andThen (traceAll todo) (compareAll ev loop todo) fun b => (next b).log loop traceAll

/-- The log of comparing. -/
def compareLog : Nat → List Comparison → Log
  | 0, _ => fun _ => []
  | loop + 1, todo => (stepPlan Comparison.identical todo).log ev trace loop (compareLog loop)

end

/-- The log of evaluating an expression. -/
def evalLog : Nat → Setting → Env → Expr → Log
  | 0, _, _, _ => fun _ => []
  | fuel + 1, setting, env, e => fun s =>
    match s.depth.enter setting.maxDepth with
    | .error _ => []
    | .ok depth =>
      (Plan.count Counters.countExpression (e.plan setting env)).log (eval fuel) (evalLog fuel) fuel
        (compareLog (eval fuel) (evalLog fuel) fuel) { s with depth }

/-- The log of following a plan with some fuel. -/
def Plan.logWith (fuel : Nat) {α : Type} (p : Plan α) : Log :=
  p.log (PolicyEval.eval fuel) (evalLog fuel) fuel
    (compareLog (PolicyEval.eval fuel) (evalLog fuel) fuel)

/-! ## Lives -/

/-- The events of one cell, from what it keeps before them to what it keeps after them.  Once it
keeps a result, that is only read.  Before, its suspension may be evaluated; nothing else happens to
the cell until that evaluation has ended, and the suspension is evaluated again only if it stopped
without a result. -/
inductive Life (address : Nat) : Option Value → List Event → Option Value → Prop
  | nil {kept : Option Value} : Life address kept [] kept
  | read {v : Value} {events : List Event} {kept : Option Value}
      (h : Life address (some v) events kept) :
      Life address (some v) (.read address v :: events) kept
  | stop {q : Suspension} {stop : Stop} {events : List Event} {kept : Option Value}
      (h : Life address none events kept) :
      Life address none (.enter address q :: .stop address stop :: events) kept
  | settle {q : Suspension} {v : Value} {events : List Event} {kept : Option Value}
      (h : Life address (some v) events kept) :
      Life address none (.enter address q :: .settle address v :: events) kept

namespace Life

variable {address : Nat} {kept kept' kept'' : Option Value} {events events' : List Event}

theorem append (h : Life address kept events kept') (h' : Life address kept' events' kept'') :
    Life address kept (events ++ events') kept'' := by
  induction h with
  | nil => exact h'
  | read _ ih => exact .read (ih h')
  | stop _ ih => exact .stop (ih h')
  | settle _ ih => exact .settle (ih h')

/-- A result stays. -/
theorem eq_of_settled {v : Value} (h : Life address (some v) events kept) : kept = some v := by
  generalize hstart : some v = start at h
  induction h with
  | nil => rfl
  | read _ ih => exact ih hstart
  | stop | settle => cases hstart

/-- If nothing happens to a cell, it keeps what it kept. -/
theorem eq_of_nil (h : Life address kept [] kept') : kept' = kept := by
  cases h
  rfl

/-- When a result arrives, the cell has none yet. -/
theorem clash_not_mem (h : Life address kept events kept') (v : Value) :
    Event.clash address v ∉ events := by
  induction h with
  | nil => exact List.not_mem_nil
  | read _ ih => simpa only [List.mem_cons, reduceCtorEq, false_or] using ih
  | stop _ ih => simpa only [List.mem_cons, reduceCtorEq, false_or] using ih
  | settle _ ih => simpa only [List.mem_cons, reduceCtorEq, false_or] using ih

/-- A settled cell is not entered. -/
theorem countP_isEnter_of_settled {v : Value} (h : Life address (some v) events kept) :
    events.countP Event.isEnter = 0 := by
  generalize hstart : some v = start at h
  induction h with
  | nil => rfl
  | read _ ih =>
      rw [List.countP_cons_of_neg Bool.false_ne_true]
      exact ih hstart
  | stop | settle => cases hstart

/-- If the suspension never stopped, it was evaluated at most once. -/
theorem countP_isEnter_le (h : Life address kept events kept')
    (hstops : ∀ stop, Event.stop address stop ∉ events) : events.countP Event.isEnter ≤ 1 := by
  cases h with
  | nil => exact Nat.zero_le 1
  | read h =>
      rw [(Life.read h).countP_isEnter_of_settled]
      exact Nat.zero_le 1
  | stop => exact absurd (List.mem_cons_of_mem _ List.mem_cons_self) (hstops _)
  | settle h =>
      rewrite [List.countP_cons_of_pos rfl, List.countP_cons_of_neg Bool.false_ne_true,
        h.countP_isEnter_of_settled]
      exact Nat.le_refl 1

end Life

end PolicyEval
