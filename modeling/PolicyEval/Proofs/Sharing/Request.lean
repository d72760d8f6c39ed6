import Mathlib.Logic.Function.Basic
import PolicyEval.Proofs.Eval.Fuel
import PolicyEval.Proofs.Eval.Residue
import PolicyEval.Session

/-!
# Requests as plans

What a session does for a request is a plan that is followed over the store of the session, and the
reply is its result.  The plan depends on the slots only through the values in them, so it can be
followed over any other account of these values as well.

* `Literal.plan` — the plan of a value written down.
* `Session.plan` — the plan of a request.
* `Session.perform_runs` — performing a request is following its plan.
* `Kinship.request_related` — over related slots a request makes related requests.
-/

namespace PolicyEval

/-! ## Values written down -/

/-- The plan of a list of known values, in new cells; see `Store.eagerList`. -/
def listPlan {α : Type} (next : Value → Plan α) : List Value → Plan α
  | [] => next .nil
  | v :: vs =>
    listPlan (fun tail => .lift (Thunk.ready tail).asTail fun y => .cell (.ready v) y next) vs

mutual
/-- The plan of a value written down; see `Store.ofLiteral`. -/
def Literal.plan {α : Type} (next : Value → Plan α) : Literal → Plan α
  | .int n => next (.int n)
  | .bool b => next (.bool b)
  | .prim p => next (.prim p)
  | .list items => Literal.plans (listPlan next) items

/-- The plan of several values written down. -/
def Literal.plans {α : Type} (next : List Value → Plan α) : List Literal → Plan α
  | [] => next []
  | item :: items => item.plan fun v => Literal.plans (fun vs => next (v :: vs)) items
end

section

variable {α : Type} (ev : Evaluator) (loop : Nat) (s : State)

theorem run_listPlan (next : Value → Plan α) (vs : List Value) :
    (listPlan next vs).run ev loop s =
      (next (s.store.eagerList vs).1).run ev loop { s with store := (s.store.eagerList vs).2 } := by
  induction vs generalizing next with
  | nil => rfl
  | cons v vs ih =>
      have hlist : (s.store.eagerList vs).1.isList = true := by
        cases vs <;> rfl
      have htail : (Thunk.ready (s.store.eagerList vs).1).asTail =
          .ok (.ready (s.store.eagerList vs).1) := by
        refine Thunk.asTail_eq_ok.2 ⟨?_, rfl⟩
        rintro u ⟨⟩
        exact hlist
      rw [listPlan, ih, htail]
      rfl

mutual
theorem run_literalPlan (s : State) (next : Value → Plan α) : (l : Literal) →
    (l.plan next).run ev loop s =
      (next (s.store.ofLiteral l).1).run ev loop { s with store := (s.store.ofLiteral l).2 }
  | .int _ | .bool _ | .prim _ => by
      simp only [Literal.plan, Store.ofLiteral]
  | .list items => by
      simp only [Literal.plan, Store.ofLiteral]
      rw [run_literalPlans s _ items, run_listPlan]

theorem run_literalPlans (s : State) (next : List Value → Plan α) : (ls : List Literal) →
    (Literal.plans next ls).run ev loop s =
      (next (s.store.ofLiterals ls).1).run ev loop { s with store := (s.store.ofLiterals ls).2 }
  | [] => by simp only [Literal.plans, Store.ofLiterals]
  | l :: ls => by
      simp only [Literal.plans, Store.ofLiterals]
      rw [run_literalPlan s _ l, run_literalPlans _ _ ls]
end

end

/-! ## The plans of requests -/

/-- The slot that a request names for its value. -/
def Request.into? : Request → Option String
  | .evaluate _ into | .evaluateUnder _ _ into | .literal _ into | .cons _ _ into | .head _ into
  | .tail _ into | .binary _ _ _ into | .unary _ _ into | .prim _ _ into | .resolve _ _ into => into
  | _ => none

/-- The slot that a request drops. -/
def Request.dropped? : Request → Option String
  | .drop slot => some slot
  | _ => none

/-- The value that a reply brings. -/
def Reply.value? : Reply → Option Value
  | .value v => some v
  | _ => none

/-- The slots after a request that got the given reply. -/
def Request.updates (r : Request) (reply : Reply) (slots : String → Option Value) :
    String → Option Value :=
  match r.dropped?, reply.value? with
  | some slot, _ => Function.update slots slot none
  | none, some v => r.into?.elim slots fun slot => Function.update slots slot (some v)
  | none, none => slots

/-- Goes on with the value in a slot. -/
def slotPlan (slots : String → Option Value) (slot : String) (next : Value → Plan Reply) :
    Plan Reply :=
  match slots slot with
  | some v => next v
  | none => .done (.noSuchSlot slot)

/-- Goes on with the closure in a slot. -/
def closurePlan (slots : String → Option Value) (slot : String) (next : Env → Plan Reply) :
    Plan Reply :=
  slotPlan slots slot fun
    | .closure _ _ env => next env
    | v => .done (.notAClosure v.describe)

/-- Goes on with the parts of the list cell in a slot. -/
def cellPlan (slots : String → Option Value) (slot : String) (next : Thunk → Thunk → Plan Reply) :
    Plan Reply :=
  slotPlan slots slot fun
    | .cons _ head tail => next head tail
    | v => .done (.notACell v.describe)

/-- The reply with a value. -/
def replyPlan (v : Value) : Plan Reply := .done (.value v)

namespace Session

/-- The plan of a request to a session whose slots have the given values. -/
def plan (s : Session) (slots : String → Option Value) : Request → Plan Reply
  | .policy => .done (.policy s.config.setting.policy)
  | .totals => .done (.totals s.totals)
  | .evaluate program _ => .eval s.config.setting .empty program replyPlan
  | .run program => (programPlan s.config program).bind fun text => .done (.text text)
  | .evaluateUnder policy program _ =>
    .eval (Config.ofPolicy policy).setting .empty program replyPlan
  | .literal l _ => l.plan replyPlan
  | .cons head tail _ =>
    slotPlan slots head fun x => slotPlan slots tail fun y =>
      if y.isList then .cell (.ready x) (.ready y) replyPlan else .done (.notAList y.describe)
  | .head slot _ => cellPlan slots slot fun head _ => .force head replyPlan
  | .tail slot _ =>
    cellPlan slots slot fun _ tail => .force tail fun v => .lift (asTail v) replyPlan
  | .inspect slot => slotPlan slots slot replyPlan
  | .drop slot => .done (.truth (slots slot).isSome)
  | .render slot printDepth =>
    slotPlan slots slot fun v =>
      let printDepth := printDepth.getD s.config.printDepth
      (renderPlan printDepth printDepth v .done).bind fun text => .done (.text text)
  | .equals left right =>
    slotPlan slots left fun x => slotPlan slots right fun y =>
      .compare [.values x y] fun t => .done (.truth t)
  | .binary op left right _ =>
    slotPlan slots left fun x => slotPlan slots right fun y => (op.plan x y).bind replyPlan
  | .unary op slot _ => slotPlan slots slot fun v => .lift (applyUnary op v) replyPlan
  | .prim p slot _ => slotPlan slots slot fun v => (p.plan v).bind replyPlan
  | .captures slot => closurePlan slots slot fun env => .done (.env env)
  | .resolve slot name _ =>
    closurePlan slots slot fun env =>
      match env.lookupText name with
      | some thunk => .force thunk replyPlan
      | none => .done .unbound

/-- What a request leads to: the reply, the store, and the slots. -/
structure Performs (s : Session) (r : Request) (answer : Reply) (cells : Store)
    (after : Session × Reply) : Prop where
  reply : after.2 = answer
  store : after.1.store = cells
  config : after.1.config = s.config
  slots : after.1.slot? = r.updates answer s.slot?

/-- Following the plan leads to this session and reply. -/
def Runs (fuel : Nat) (s : Session) (r : Request) (p : Plan Reply) (after : Session × Reply) :
    Prop :=
  match p.run (eval fuel) fuel (State.start s.store) with
  | .ok reply state => s.Performs r reply state.store after
  | .error stop state => s.Performs r (stopped stop) state.store after

theorem Runs.of_ok {fuel : Nat} {s : Session} {r : Request} {p : Plan Reply}
    {after : Session × Reply} (h : s.Runs fuel r p after) {reply : Reply} {state : State}
    (hrun : p.run (eval fuel) fuel (State.start s.store) = .ok reply state) :
    s.Performs r reply state.store after := by
  unfold Runs at h
  rwa [hrun] at h

theorem Runs.of_error {fuel : Nat} {s : Session} {r : Request} {p : Plan Reply}
    {after : Session × Reply} (h : s.Runs fuel r p after) {stop : Stop} {state : State}
    (hrun : p.run (eval fuel) fuel (State.start s.store) = .error stop state) :
    s.Performs r (stopped stop) state.store after := by
  unfold Runs at h
  rwa [hrun] at h

theorem lookup_cons_eq (slots : List (String × Value)) (slot other : String) (v : Value) :
    ((slot, v) :: slots).lookup other = if other = slot then some v else slots.lookup other := by
  by_cases h : other = slot
  · simp [h]
  · have hb : (other == slot) = false := by simpa using h
    simp [List.lookup_cons, hb, h]

theorem lookup_filter (slots : List (String × Value)) (slot other : String) :
    (slots.filter fun entry => entry.1 != slot).lookup other =
      if other = slot then none else slots.lookup other := by
  induction slots with
  | nil => simp
  | cons entry slots ih =>
      obtain ⟨name, v⟩ := entry
      by_cases hname : name = slot
      · subst hname
        rw [List.filter_cons_of_neg (by simp), ih, lookup_cons_eq]
        split <;> rfl
      · rw [List.filter_cons_of_pos (by simpa using hname), lookup_cons_eq, lookup_cons_eq, ih]
        grind

theorem slot?_put (s : Session) (into : Option String) (v : Value) :
    (s.put into v).slot? = into.elim s.slot? fun slot => Function.update s.slot? slot (some v) := by
  cases into with
  | none => rfl
  | some slot =>
      funext other
      simp only [put, slot?, Option.elim_some, Function.update_apply, lookup_cons_eq, lookup_filter]
      grind

theorem slot?_forget (s : Session) (slot : String) :
    (s.forget slot).slot? = Function.update s.slot? slot none := by
  funext other
  simp only [forget, slot?, lookup_filter, Function.update_apply]

section

variable {fuel : Nat} {s : Session} {r : Request} {p : Plan Reply}

/-- The slots stay as they are unless a value comes or the request drops a slot. -/
theorem updates_of_value?_eq_none {slots : String → Option Value} {reply : Reply}
    (hr : r.dropped? = none) (hreply : reply.value? = none) : r.updates reply slots = slots := by
  simp only [Request.updates, hr, hreply]

theorem updates_of_value?_eq_some {slots : String → Option Value} {reply : Reply} {v : Value}
    (hr : r.dropped? = none) (hreply : reply.value? = some v) :
    r.updates reply slots = r.into?.elim slots fun slot => Function.update slots slot (some v) := by
  simp only [Request.updates, hr, hreply]

theorem value?_stopped (stop : Stop) : (stopped stop).value? = none := by
  cases stop <;> rfl

/-- Nothing is done for the reply. -/
theorem runs_done {reply : Reply} (hreply : r.updates reply s.slot? = s.slot?) :
    s.Runs fuel r (.done reply) (s, reply) :=
  ⟨rfl, rfl, rfl, hreply.symm⟩

/-- A computation with an answer. -/
theorem runs_answers {α : Type} {body : Eval α} {next : α → Reply} (hr : r.dropped? = none)
    (hnext : ∀ a, (next a).value? = none) (totals : Option Counters)
    (hp : p.run (eval fuel) fuel = body >>= fun a => pure (next a)) :
    s.Runs fuel r p (({ s with totals } : Session).answers body next) := by
  unfold Runs answers Eval.report
  rw [hp]
  cases hbody : body (State.start s.store) with
  | ok a state =>
      rw [Eval.bind_of_ok hbody]
      exact ⟨rfl, rfl, rfl, (updates_of_value?_eq_none hr (hnext a)).symm⟩
  | error stop state =>
      rw [Eval.bind_of_error hbody]
      exact ⟨rfl, rfl, rfl, (updates_of_value?_eq_none hr (value?_stopped stop)).symm⟩

/-- A computation with a value that goes into a slot. -/
theorem runs_yielded {body : Eval Value} (hr : r.dropped? = none) (totals : Option Counters)
    (hp : p.run (eval fuel) fuel = body >>= fun v => pure (.value v)) :
    s.Runs fuel r p (({ s with totals } : Session).yielded r.into? (body.report s.store)) := by
  unfold Runs yielded Eval.report
  rw [hp]
  cases hbody : body (State.start s.store) with
  | ok v state =>
      rw [Eval.bind_of_ok hbody]
      refine ⟨rfl, ?_, ?_, ?_⟩
      · cases r.into? <;> rfl
      · cases r.into? <;> rfl
      · rw [updates_of_value?_eq_some hr rfl]
        exact slot?_put _ _ _
  | error stop state =>
      rw [Eval.bind_of_error hbody]
      exact ⟨rfl, rfl, rfl, (updates_of_value?_eq_none hr (value?_stopped stop)).symm⟩

/-- A new value that goes into a slot. -/
theorem runs_made {v : Value} {store : Store} (hr : r.dropped? = none)
    (hp : p.run (eval fuel) fuel (State.start s.store) =
      .ok (.value v) { State.start s.store with store }) :
    s.Runs fuel r p (({ s with store } : Session).put r.into? v, .value v) := by
  unfold Runs
  rw [hp]
  refine ⟨rfl, ?_, ?_, ?_⟩
  · cases r.into? <;> rfl
  · cases r.into? <;> rfl
  · rw [updates_of_value?_eq_some hr rfl]
    exact slot?_put _ _ _

theorem runs_withSlot {slot : String} {next : Value → Plan Reply}
    {next' : Value → Session × Reply} (hr : r.dropped? = none)
    (h : ∀ v, s.Runs fuel r (next v) (next' v)) :
    s.Runs fuel r (slotPlan s.slot? slot next) (s.withSlot slot next') := by
  unfold slotPlan withSlot
  cases s.slot? slot with
  | none => exact runs_done (updates_of_value?_eq_none hr rfl)
  | some v => exact h v

theorem runs_withCell {slot : String} {next : Thunk → Thunk → Plan Reply}
    {next' : Thunk → Thunk → Session × Reply} (hr : r.dropped? = none)
    (h : ∀ x y, s.Runs fuel r (next x y) (next' x y)) :
    s.Runs fuel r (cellPlan s.slot? slot next) (s.withCell slot next') := by
  refine runs_withSlot hr fun v => ?_
  cases v with
  | cons tag x y => exact h x y
  | _ => exact runs_done (updates_of_value?_eq_none hr rfl)

theorem runs_withClosure {slot : String} {next : Env → Plan Reply}
    {next' : Env → Session × Reply} (hr : r.dropped? = none)
    (h : ∀ ρ, s.Runs fuel r (next ρ) (next' ρ)) :
    s.Runs fuel r (closurePlan s.slot? slot next) (s.withClosure slot next') := by
  refine runs_withSlot hr fun v => ?_
  cases v with
  | closure tag lambda ρ => exact h ρ
  | _ => exact runs_done (updates_of_value?_eq_none hr rfl)

end

/-- Performing a request is following its plan. -/
theorem perform_runs (fuel : Nat) (s : Session) (r : Request) :
    s.Runs fuel r (s.plan s.slot? r) (s.perform fuel r) := by
  cases r with
  | policy | totals => exact runs_done rfl
  | evaluate program into => exact runs_yielded rfl _ rfl
  -- A program is answered like any other computation, in a session that has counted it.
  | run program =>
      let report := (runProgram fuel s.config program).report s.store
      have heq : s.perform fuel (.run program) = ({ s with
          totals := (s.addProfile report.profile).totals } : Session).answers
            (runProgram fuel s.config program) .text := by
        simp only [perform, answers, report]
        cases ((runProgram fuel s.config program).report s.store).result <;> rfl
      rw [heq]
      refine runs_answers rfl (fun _ => rfl) _ ?_
      rw [plan, Plan.run_bind, runProgram_eq_run]
      rfl
  | evaluateUnder policy program into => exact runs_yielded rfl s.totals rfl
  | literal l into => exact runs_made rfl (run_literalPlan (eval fuel) fuel _ _ l)
  | cons head tail into =>
      refine runs_withSlot rfl fun x => runs_withSlot rfl fun y => ?_
      split
      · exact runs_made rfl rfl
      · exact runs_done rfl
  | head slot into => exact runs_withCell rfl fun x _ => runs_yielded rfl s.totals rfl
  | tail slot into =>
      refine runs_withCell rfl fun _ y => runs_yielded rfl s.totals ?_
      simp only [Plan.run, Plan.run_lift, forceTail, bind_assoc]
      rfl
  | inspect slot => exact runs_withSlot rfl fun v => runs_done rfl
  | drop slot => exact ⟨rfl, rfl, rfl, s.slot?_forget slot⟩
  | render slot printDepth =>
      refine runs_withSlot rfl fun v => runs_answers rfl (fun _ => rfl) s.totals ?_
      simp only [Plan.run_bind, run_renderPlan, Plan.run, bind_assoc, pure_bind]
      rfl
  | equals left right =>
      exact runs_withSlot rfl fun x => runs_withSlot rfl fun y =>
        runs_answers rfl (fun _ => rfl) s.totals rfl
  | binary op left right into =>
      refine runs_withSlot rfl fun x => runs_withSlot rfl fun y =>
        runs_yielded rfl s.totals ?_
      simp only [Plan.run_bind, run_binaryPlan]
      rfl
  | unary op slot into =>
      refine runs_withSlot rfl fun v => runs_yielded rfl s.totals ?_
      simp only [Plan.run_lift]
      rfl
  | prim p slot into =>
      refine runs_withSlot rfl fun v => runs_yielded rfl s.totals ?_
      simp only [Plan.run_bind, run_primPlan]
      rfl
  | captures slot => exact runs_withClosure rfl fun ρ => runs_done rfl
  | resolve slot name into =>
      refine runs_withClosure rfl fun ρ => ?_
      cases ρ.lookupText name with
      | none => exact runs_done rfl
      | some x => exact runs_yielded rfl s.totals rfl

theorem config_perform (fuel : Nat) (s : Session) (r : Request) :
    (s.perform fuel r).1.config = s.config := by
  cases hrun : (s.plan s.slot? r).run (eval fuel) fuel (State.start s.store) with
  | ok reply state => exact ((s.perform_runs fuel r).of_ok hrun).config
  | error stop state => exact ((s.perform_runs fuel r).of_error hrun).config

end Session

/-! ## Related requests -/

/-- The reply brings neither a value nor an environment. -/
def Reply.isPlain : Reply → Bool
  | .value _ | .env _ => false
  | _ => true

/-- Two replies of the same kind with related contents. -/
inductive Reply.SameKind (value : Value → Value → Prop) (env : Env → Env → Prop) :
    Reply → Reply → Prop
  | plain {reply : Reply} (h : reply.isPlain = true) : SameKind value env reply reply
  | value {v w : Value} (h : value v w) : SameKind value env (.value v) (.value w)
  | env {ρ ρ' : Env} (h : env ρ ρ') : SameKind value env (.env ρ) (.env ρ')

theorem Reply.SameKind.mono {value value' : Value → Value → Prop} {env env' : Env → Env → Prop}
    (hvalue : ∀ {v w}, value v w → value' v w) (henv : ∀ {a b}, env a b → env' a b)
    {reply reply' : Reply} (h : reply.SameKind value env reply') :
    reply.SameKind value' env' reply' := by
  cases h with
  | plain h => exact .plain h
  | value h => exact .value (hvalue h)
  | env h => exact .env (henv h)

theorem Reply.value?_of_isPlain {reply : Reply} (h : reply.isPlain = true) : reply.value? = none := by
  cases reply <;> simp_all [Reply.isPlain, Reply.value?]

section

variable {value : Value → Value → Prop} {env : Env → Env → Prop} {reply reply' : Reply}

theorem Reply.SameKind.eq_of_isPlain (h : reply.SameKind value env reply')
    (hplain : reply'.isPlain = true) : reply = reply' := by
  cases h with
  | plain => rfl
  | value | env => cases hplain

theorem Reply.SameKind.of_value (h : reply.SameKind value env reply') {w : Value}
    (hw : reply' = .value w) : ∃ v, reply = .value v ∧ value v w := by
  cases h with
  | plain hplain =>
      rw [hw] at hplain
      cases hplain
  | value hv =>
      cases hw
      exact ⟨_, rfl, hv⟩
  | env => cases hw

end

/-- The operations on kept values that may force delayed parts. -/
inductive Probe where
  /-- The first part of a list cell. -/
  | head (slot : String)
  /-- The second part of a list cell. -/
  | tail (slot : String)
  /-- A binding that a closure captured. -/
  | resolve (slot name : String)
  /-- The text of a value. -/
  | render (slot : String) (printDepth : Option Nat)
  /-- Whether two values are equal. -/
  | equals (left right : String)

/-- The request for an operation; a value that it yields goes into the slot that is named. -/
def Probe.request (into : Option String) : Probe → Request
  | head slot => .head slot into
  | tail slot => .tail slot into
  | resolve slot name => .resolve slot name into
  | render slot printDepth => .render slot printDepth
  | equals left right => .equals left right

theorem Probe.dropped?_request (a : Probe) (into : Option String) :
    (a.request into).dropped? = none := by
  cases a <;> rfl

/-- The slots that an operation reads. -/
def Probe.reads : Probe → List String
  | head slot | tail slot | resolve slot _ | render slot _ => [slot]
  | equals left right => [left, right]

/-- The plan of an operation depends on the configuration and on the slots that it reads. -/
theorem Session.plan_congr {s s' : Session} (hconfig : s'.config = s.config)
    {values values' : String → Option Value} (a : Probe)
    (h : ∀ slot ∈ a.reads, values' slot = values slot) (into : Option String) :
    s'.plan values' (a.request into) = s.plan values (a.request into) := by
  cases a with
  | equals left right =>
      have hleft := h left (by simp [Probe.reads])
      have hright := h right (by simp [Probe.reads])
      simp only [Probe.request, Session.plan, slotPlan, hleft, hright]
  | head slot | tail slot | resolve slot name =>
      have hslot := h slot (by simp [Probe.reads])
      simp only [Probe.request, Session.plan, cellPlan, closurePlan, slotPlan, hslot]
  | render slot printDepth =>
      have hslot := h slot (by simp [Probe.reads])
      simp only [Probe.request, Session.plan, slotPlan, hslot, hconfig]

/-! ## Operations on kept values -/

/-- With more fuel the computation ends as before. -/
def Eval.Grows {α : Type} (body : Nat → Eval α) : Prop :=
  ∀ {fuel fuel'}, fuel ≤ fuel' → (body fuel').Extends (body fuel)

theorem renderValue_grows (printDepth : Nat) (v : Value) :
    Eval.Grows fun fuel => renderValue (eval fuel) printDepth v := by
  intro fuel fuel' hfuel
  have hrun : ∀ fuel, renderValue (eval fuel) printDepth v =
      (renderPlan printDepth printDepth v .done).run (eval fuel) fuel := by
    intro fuel
    simp only [run_renderPlan, Plan.run, bind_pure]
    rfl
  have heval := fun setting ρ e => eval_extends hfuel setting ρ e
  dsimp only
  rw [hrun, hrun]
  exact run_extends heval (compareAll_extends heval hfuel) _

namespace Session

/-- How an operation is performed: there is nothing to do, a value is computed, or an answer. -/
inductive Handles (s : Session) (into : Option String) (r : Request)
    (after : Nat → Session × Reply) : Prop
  | still {reply : Reply} (hplain : reply.isPlain = true) (h : ∀ fuel, after fuel = (s, reply))
  | yields {body : Nat → Eval Value} (hgrows : Eval.Grows body) (hinto : r.into? = into)
      (h : ∀ fuel, after fuel = s.yields into (body fuel))
  | answers {α : Type} {body : Nat → Eval α} {next : α → Reply} (hgrows : Eval.Grows body)
      (hplain : ∀ a, (next a).isPlain = true)
      (h : ∀ fuel, after fuel = s.answers (body fuel) next)

section

variable {s : Session} {into : Option String} {r : Request}

theorem handles_withSlot {slot : String} {next : Nat → Value → Session × Reply}
    (h : ∀ v, s.Handles into r fun fuel => next fuel v) :
    s.Handles into r fun fuel => s.withSlot slot (next fuel) := by
  unfold withSlot
  cases s.slot? slot with
  | none => exact .still rfl fun _ => rfl
  | some v => exact h v

theorem handles_withCell {slot : String} {next : Nat → Thunk → Thunk → Session × Reply}
    (h : ∀ x y, s.Handles into r fun fuel => next fuel x y) :
    s.Handles into r fun fuel => s.withCell slot (next fuel) := by
  refine handles_withSlot fun v => ?_
  cases v with
  | cons tag x y => exact h x y
  | _ => exact .still rfl fun _ => rfl

theorem handles_withClosure {slot : String} {next : Nat → Env → Session × Reply}
    (h : ∀ ρ, s.Handles into r fun fuel => next fuel ρ) :
    s.Handles into r fun fuel => s.withClosure slot (next fuel) := by
  refine handles_withSlot fun v => ?_
  cases v with
  | closure tag lambda ρ => exact h ρ
  | _ => exact .still rfl fun _ => rfl

/-- An operation replies with something plain, or with a value that goes into the slot it names. -/
theorem Handles.reply {after : Nat → Session × Reply} (h : s.Handles into r after) (fuel : Nat) :
    (after fuel).2.isPlain = true ∨ r.into? = into ∧ ∃ v, (after fuel).2 = .value v := by
  cases h with
  | still hplain h =>
      rw [h]
      exact .inl hplain
  | @yields body hgrows hinto h =>
      rw [h]
      unfold Session.yields Session.yielded
      cases ((body fuel).report s.store).result with
      | ok v => exact .inr ⟨hinto, v, rfl⟩
      | error stop => cases stop <;> exact .inl rfl
  | @answers α body next hgrows hplain h =>
      rw [h]
      dsimp only [Session.answers]
      cases ((body fuel).report s.store).result with
      | ok a => exact .inl (hplain a)
      | error stop => cases stop <;> exact .inl rfl

/-- An operation that came to an end is performed in the same way with more fuel. -/
theorem Handles.extends {after : Nat → Session × Reply} (h : s.Handles into r after)
    {fuel fuel' : Nat} (hfuel : fuel ≤ fuel') (hended : (after fuel).2 ≠ .outOfFuel) :
    after fuel' = after fuel := by
  have hreport : ∀ {α : Type} {body : Nat → Eval α}, Eval.Grows body →
      ((body fuel).report s.store).result ≠ .error .outOfFuel →
        (body fuel').report s.store = (body fuel).report s.store := by
    intro α body hgrows hresult
    unfold Eval.report at hresult ⊢
    rcases hgrows hfuel (State.start s.store) with ⟨state, hstarved⟩ | heq
    · rw [hstarved] at hresult
      exact absurd rfl hresult
    · rw [heq]
  cases h with
  | still _ h => rw [h, h]
  | @yields body hgrows _ h =>
      rw [h] at hended ⊢
      rw [h]
      unfold Session.yields at hended ⊢
      rw [hreport hgrows fun hresult => hended ?_]
      unfold Session.yielded
      rw [hresult]
      rfl
  | @answers α body next hgrows _ h =>
      rw [h] at hended ⊢
      rw [h]
      dsimp only [Session.answers] at hended ⊢
      rw [hreport hgrows fun hresult => hended ?_]
      rw [hresult]
      rfl

end

theorem handles_probe (s : Session) (a : Probe) (into : Option String) :
    s.Handles into (a.request into) fun fuel => s.perform fuel (a.request into) := by
  have hforce : ∀ x, Eval.Grows fun fuel => force (eval fuel) x := fun x _ _ hfuel =>
    force_extends (fun setting ρ e => eval_extends hfuel setting ρ e) x
  cases a with
  | head slot => exact handles_withCell fun x _ => .yields (hforce x) rfl fun _ => rfl
  | tail slot =>
      refine handles_withCell fun _ y => .yields (fun hfuel => ?_) rfl fun _ => rfl
      exact .bind (hforce y hfuel) fun _ => .refl _
  | resolve slot name =>
      refine handles_withClosure fun ρ => ?_
      cases ρ.lookupText name with
      | none => exact .still rfl fun _ => rfl
      | some x => exact .yields (hforce x) rfl fun _ => rfl
  | render slot printDepth =>
      exact handles_withSlot fun v =>
        .answers (renderValue_grows _ v) (fun _ => rfl) fun _ => rfl
  | equals left right =>
      refine handles_withSlot fun x => handles_withSlot fun y =>
        .answers (fun hfuel => ?_) (fun _ => rfl) fun _ => rfl
      exact compareAll_extends (fun setting ρ e => eval_extends hfuel setting ρ e) hfuel _

end Session

namespace Kinship

variable {K : Kinship} {W : K.World}

theorem lookupText {ρ ρ' : Env} (h : K.env W ρ ρ') (text : String) :
    (ρ.lookupText text = none ∧ ρ'.lookupText text = none) ∨
      ∃ x x', ρ.lookupText text = some x ∧ ρ'.lookupText text = some x' ∧ K.thunk W x x' := by
  match ρ, ρ', K.env_layer h with
  | _, _, .empty => exact .inl ⟨rfl, rfl⟩
  | .frame _ bound x rest, .frame _ _ x' rest', .frame hbound hrest =>
      unfold Env.lookupText
      by_cases hname : bound.text = text
      · simp only [hname, if_true]
        exact .inr ⟨x, x', rfl, rfl, hbound⟩
      · simp only [hname, if_false]
        exact lookupText hrest text

/-- Related replies; `envs` says what environments may come. -/
abbrev Replies (K : Kinship) (envs : K.World → Env → Env → Prop) (W : K.World) :
    Reply → Reply → Prop :=
  Reply.SameKind (K.value W) (envs W)

section

variable {slots slots' : String → Option Value}
  (hslots : ∀ slot, Option.Rel (K.value W) (slots slot) (slots' slot))
  {envs : K.World → Env → Env → Prop}

theorem reply_related {v w : Value} (h : K.value W v w) :
    Plan.Related K (K.Replies envs) W (replyPlan v) (replyPlan w) :=
  .done (.value h)

include hslots

theorem slot_related {slot : String} {next next' : Value → Plan Reply}
    (hnext : ∀ v w, K.value W v w → Plan.Related K (K.Replies envs) W (next v) (next' w)) :
    Plan.Related K (K.Replies envs) W (slotPlan slots slot next) (slotPlan slots' slot next') := by
  have hslot := hslots slot
  unfold slotPlan
  generalize slots slot = held at hslot ⊢
  generalize slots' slot = held' at hslot ⊢
  cases hslot with
  | none => exact .done (.plain rfl)
  | some h => exact hnext _ _ h

theorem cell_related {slot : String} {next next' : Thunk → Thunk → Plan Reply}
    (hnext : ∀ x x' y y', K.thunk W x x' → K.thunk W y y' →
      Plan.Related K (K.Replies envs) W (next x y) (next' x' y')) :
    Plan.Related K (K.Replies envs) W (cellPlan slots slot next) (cellPlan slots' slot next') := by
  refine slot_related hslots fun v w hv => ?_
  cases K.value_layer hv with
  | cons hhead htail => exact hnext _ _ _ _ hhead htail
  | closure => exact .done (.plain rfl)
  | atom hatom =>
      cases v with
      | closure | cons => exact hatom.elim
      | _ => exact .done (.plain rfl)

theorem closure_related {slot : String} {next next' : Env → Plan Reply}
    (hnext : ∀ ρ ρ', K.env W ρ ρ' → Plan.Related K (K.Replies envs) W (next ρ) (next' ρ')) :
    Plan.Related K (K.Replies envs) W (closurePlan slots slot next)
      (closurePlan slots' slot next') := by
  refine slot_related hslots fun v w hv => ?_
  cases K.value_layer hv with
  | closure henv => exact hnext _ _ henv
  | cons => exact .done (.plain rfl)
  | atom hatom =>
      cases v with
      | closure | cons => exact hatom.elim
      | _ => exact .done (.plain rfl)

/-- Over related slots an operation makes related requests. -/
theorem probe_related (s : Session) (a : Probe) (into : Option String) :
    Plan.Related K (K.Replies envs) W (s.plan slots (a.request into))
      (s.plan slots' (a.request into)) := by
  have hreply : ∀ W', K.le W W' → ∀ v w, K.value W' v w →
      Plan.Related K (K.Replies envs) W' (replyPlan v) (replyPlan w) :=
    fun _ _ _ _ hv => reply_related hv
  cases a with
  | head slot => exact cell_related hslots fun x x' _ _ hx _ => .force hx hreply
  | tail slot =>
      exact cell_related hslots fun _ _ y y' _ hy =>
        .force hy fun _ _ _ _ hv => tail_related hv (reply_related hv)
  | resolve slot name =>
      refine closure_related hslots fun ρ ρ' henv => ?_
      rcases lookupText henv name with ⟨hleft, hright⟩ | ⟨x, x', hleft, hright, hx⟩
      · rw [hleft, hright]
        exact .done (.plain rfl)
      · rw [hleft, hright]
        exact .force hx hreply
  | render slot printDepth =>
      refine slot_related hslots fun v w hv => ?_
      refine (render_related _ _ hv fun _ _ _ => .done rfl).bind ?_
      rintro W' - text _ rfl
      exact .done (.plain rfl)
  | equals left right =>
      refine slot_related hslots fun x x' hx => slot_related hslots fun y y' hy => ?_
      have htodo := K.todo_cons (.values hx hy) K.todo_nil
      exact .compare htodo fun _ _ _ => .done (.plain rfl)

end

section

variable {α β : Type} {post : K.World → α → β → Prop}

/-- Related values are related as thunks, too. -/
def TakesReady (K : Kinship) : Prop :=
  ∀ {W v w}, K.value W v w → K.thunk W (.ready v) (.ready w)

theorem list_related (hready : K.TakesReady) {vs ws : List Value}
    (hvs : List.Forall₂ (K.value W) vs ws) {next : Value → Plan α} {next' : Value → Plan β}
    (hnext : ∀ W', K.le W W' → ∀ v w, K.value W' v w → Plan.Related K post W' (next v) (next' w)) :
    Plan.Related K post W (listPlan next vs) (listPlan next' ws) := by
  induction hvs generalizing next next' with
  | nil => exact hnext W (K.refl W) _ _ (K.atom trivial)
  | cons hv _ ih =>
      refine ih fun W₁ h₁ tail tail' htail => thunkTail_related (hready htail) fun hlist => ?_
      refine .cell (hready (K.value_mono h₁ hv)) (hready htail) hlist fun W₂ h₂ => ?_
      exact hnext W₂ (K.trans h₁ h₂)

mutual
/-- A value written down makes related requests on both sides. -/
theorem literal_related (hready : K.TakesReady)
    {W : K.World} {next : Value → Plan α} {next' : Value → Plan β}
    (hnext : ∀ W', K.le W W' → ∀ v w, K.value W' v w → Plan.Related K post W' (next v) (next' w)) :
    (l : Literal) → Plan.Related K post W (l.plan next) (l.plan next')
  | .int _ | .bool _ | .prim _ => by
      simp only [Literal.plan]
      exact hnext W (K.refl W) _ _ (K.atom trivial)
  | .list items => by
      simp only [Literal.plan]
      exact literals_related hready (fun W₁ h₁ _ _ hvs => list_related hready hvs fun W₂ h₂ =>
        hnext W₂ (K.trans h₁ h₂)) items

theorem literals_related (hready : K.TakesReady)
    {W : K.World} {next : List Value → Plan α} {next' : List Value → Plan β}
    (hnext : ∀ W', K.le W W' → ∀ vs ws, List.Forall₂ (K.value W') vs ws →
      Plan.Related K post W' (next vs) (next' ws)) :
    (ls : List Literal) → Plan.Related K post W (Literal.plans next ls) (Literal.plans next' ls)
  | [] => by
      simp only [Literal.plans]
      exact hnext W (K.refl W) _ _ .nil
  | l :: ls => by
      simp only [Literal.plans]
      refine literal_related hready (fun W₁ h₁ v w hv => ?_) l
      refine literals_related hready (fun W₂ h₂ vs ws hvs => ?_) ls
      exact hnext W₂ (K.trans h₁ h₂) _ _ (.cons (K.value_mono h₂ hv) hvs)
end

end

/-- Over related slots a request makes related requests, if it runs under the setting of both
sides. -/
theorem request_related {slots slots' : String → Option Value}
    (hready : K.TakesReady) {s : Session}
    (hleft : K.left = s.config.setting) (hright : K.right = s.config.setting)
    (hslots : ∀ slot, Option.Rel (K.value W) (slots slot) (slots' slot)) (r : Request)
    (hr : ∀ policy program into, r ≠ .evaluateUnder policy program into) :
    Plan.Related K (K.Replies K.env) W (s.plan slots r) (s.plan slots' r) := by
  -- Whatever a request comes to, related values are replied in the same way.
  have hreply : ∀ W', K.le W W' → ∀ v w, K.value W' v w →
      Plan.Related K (K.Replies K.env) W' (replyPlan v) (replyPlan w) :=
    fun _ _ _ _ hv => reply_related hv
  cases r with
  | policy | totals => exact .done (.plain rfl)
  | evaluate program into =>
      have heval := Plan.Related.eval (K.empty (W := W)) (e := program) hreply
      rwa [hleft, hright] at heval
  | run program =>
      have hprogram := K.program_related (W := W) s.config.printDepth program
      rw [hleft, hright] at hprogram
      refine hprogram.bind ?_
      rintro W' - text _ rfl
      exact .done (.plain rfl)
  | evaluateUnder policy program into => exact absurd rfl (hr policy program into)
  | literal l into => exact literal_related hready hreply l
  | cons head tail into =>
      refine slot_related hslots fun x x' hx => slot_related hslots fun y y' hy => ?_
      rw [(K.value_layer hy).isList_eq, (K.value_layer hy).describe_eq]
      split
      · next hlist =>
          refine .cell (hready hx) (hready hy) ?_ hreply
          rintro v ⟨⟩
          exact hlist
      · exact .done (.plain rfl)
  | head slot into => exact probe_related hslots s (.head slot) into
  | tail slot into => exact probe_related hslots s (.tail slot) into
  | inspect slot => exact slot_related hslots fun v w hv => reply_related hv
  | drop slot =>
      have hslot := hslots slot
      have hsome : (slots slot).isSome = (slots' slot).isSome := by
        generalize slots slot = held at hslot ⊢
        generalize slots' slot = held' at hslot ⊢
        cases hslot <;> rfl
      simp only [Session.plan, hsome]
      exact .done (.plain rfl)
  | render slot printDepth => exact probe_related hslots s (.render slot printDepth) none
  | equals left right => exact probe_related hslots s (.equals left right) none
  | binary op left right into =>
      refine slot_related hslots fun x x' hx => slot_related hslots fun y y' hy => ?_
      exact (binary_related hx hy op).bind hreply
  | unary op slot into =>
      refine slot_related hslots fun v w hv => ?_
      rw [applyUnary_congr (K.value_layer hv).describe_eq op]
      refine .lift_same rfl fun u hu => reply_related (K.atom ?_)
      have hplain := applyUnary_plain op v
      rw [hu] at hplain
      exact Value.IsScalar.isAtom hplain
  | prim p slot into =>
      exact slot_related hslots fun v w hv => (prim_related hv p).bind hreply
  | captures slot => exact closure_related hslots fun ρ ρ' henv => .done (.env henv)
  | resolve slot name into => exact probe_related hslots s (.resolve slot name) into

end Kinship

end PolicyEval
