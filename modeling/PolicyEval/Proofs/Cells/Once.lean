import PolicyEval.Proofs.Cells.Lives
import PolicyEval.Session

/-!
# Store cells settle once

Between requests no cell is running, so whatever a session is asked, the events of each of its cells
are a life: the suspension of the cell is evaluated until that succeeds for the first time, never
while it is being evaluated already, and from then on its result is only read.

* `Session.requestLog`, `Session.log` — what requests do to store cells.
* `Session.Tidy` — the store of the session is sound, and its slots mention only cells of the store.
* `Session.perform_proceeds` — one request keeps this, and its events continue the lives of cells.
* `Session.cells_settle_once` — the events of each cell in a whole session.
-/

namespace PolicyEval

/-! ## Logs of sessions -/

/-- The request was answered by an evaluation that stopped without a result. -/
def Reply.isStop : Reply → Bool
  | .fault _ | .outOfFuel => true
  | _ => false

/-- The plan of forcing the second part of a list cell. -/
def tailPlan (tail : Thunk) : Plan Value := .force tail fun v => .lift (asTail v) .done

theorem run_tailPlan (ev : Evaluator) (loop : Nat) (tail : Thunk) :
    (tailPlan tail).run ev loop = forceTail ev tail := by
  simp only [tailPlan, Plan.run, Plan.run_lift, bind_pure, forceTail]

namespace Session

/-- The log of a computation on the value in a slot, if there is one. -/
def slotLog (s : Session) (slot : String) (next : Value → Log) : Log :=
  match s.slot? slot with
  | some v => next v
  | none => fun _ => []

/-- The log of what is done to perform a request. -/
def requestLog (fuel : Nat) (s : Session) : Request → Log
  | .evaluate program _ => evalLog fuel s.config.setting .empty program
  | .run program => (programPlan s.config program).logWith fuel
  | .evaluateUnder policy program _ => evalLog fuel (Config.ofPolicy policy).setting .empty program
  | .head slot _ => s.slotLog slot fun
    | .cons _ head _ => forceLog (eval fuel) (evalLog fuel) head
    | _ => fun _ => []
  | .tail slot _ => s.slotLog slot fun
    | .cons _ _ tail => (tailPlan tail).logWith fuel
    | _ => fun _ => []
  | .render slot printDepth => s.slotLog slot fun v =>
    let printDepth := printDepth.getD s.config.printDepth
    (renderPlan printDepth printDepth v .done).logWith fuel
  | .equals left right => s.slotLog left fun x => s.slotLog right fun y =>
    compareLog (eval fuel) (evalLog fuel) fuel [.values x y]
  | .binary op left right _ => s.slotLog left fun x => s.slotLog right fun y =>
    (op.plan x y).logWith fuel
  | .prim p slot _ => s.slotLog slot fun v => (p.plan v).logWith fuel
  | .resolve slot name _ => s.slotLog slot fun
    | .closure _ _ env =>
      match env.lookupText name with
      | some thunk => forceLog (eval fuel) (evalLog fuel) thunk
      | none => fun _ => []
    | _ => fun _ => []
  | _ => fun _ => []

/-- The session after requests, each with the fuel that stands beside it. -/
def after (s : Session) : List (Nat × Request) → Session
  | [] => s
  | (fuel, r) :: requests => (s.perform fuel r).1.after requests

/-- What requests do to store cells. -/
def log (s : Session) : List (Nat × Request) → List Event
  | [] => []
  | (fuel, r) :: requests =>
    s.requestLog fuel r (State.start s.store) ++ (s.perform fuel r).1.log requests

theorem after_append (s : Session) (requests more : List (Nat × Request)) :
    s.after (requests ++ more) = (s.after requests).after more := by
  induction requests generalizing s with
  | nil => rfl
  | cons request requests ih => exact ih _

end Session

/-! ## Tidy sessions -/

/-- The heap says what is in the store of the session, and the slots mention only its cells. -/
structure Session.Tidy (H : Heap) (s : Session) : Prop where
  sound : H.Sound
  store : H.Describes s.store
  slots : ∀ entry ∈ s.slots, H.Admits [] entry.2.Mentions

/-- A request with these events leaves a tidy session over a later heap; if it was answered, no
evaluation of a suspension stopped on the way. -/
def Session.Proceeds (H : Heap) (after : Session × Reply) (events : List Event) : Prop :=
  ∃ H', H.Advances [] events H' ∧ after.1.Tidy H' ∧
    (after.2.isStop = false → ∀ x stop, Event.stop x stop ∉ events)

theorem Heap.running_nil (H : Heap) : H.Running [] := nofun

namespace Session.Tidy

variable {H H' : Heap} {s : Session}

theorem slot? (h : s.Tidy H) {slot : String} {v : Value} (hv : s.slot? slot = some v) :
    H.Admits [] v.Mentions := by
  obtain ⟨before, after, hslots, -⟩ := List.lookup_eq_some_iff.1 hv
  exact h.slots (slot, v) (by rw [hslots]; simp)

/-- A session with the same slots over a later heap. -/
theorem advance (h : s.Tidy H) (hle : Heap.Le [] H H') (hH' : H'.Sound) {s' : Session}
    (hslots : s'.slots = s.slots) (hstore : H'.Describes s'.store) : s'.Tidy H' := by
  refine ⟨hH', hstore, fun entry hentry => ?_⟩
  rw [hslots] at hentry
  exact (h.slots entry hentry).mono hle

theorem put (h : s.Tidy H) {v : Value} (hv : H.Admits [] v.Mentions) (into : Option String) :
    (s.put into v).Tidy H := by
  cases into with
  | none => exact h
  | some slot =>
      refine ⟨h.sound, h.store, List.forall_mem_cons.2 ⟨hv, ?_⟩⟩
      intro entry hentry
      exact h.slots entry (List.mem_filter.1 hentry).1

theorem start (config : Config) (counting : Bool) : (Session.start config counting).Tidy .empty :=
  ⟨Heap.sound_empty, Heap.describes_empty, by simp [Session.start]⟩

/-- Nothing happens. -/
theorem proceeds (h : s.Tidy H) (reply : Reply) : Proceeds H (s, reply) [] :=
  ⟨H, .refl h.sound, h, fun _ _ _ => List.not_mem_nil⟩

theorem forget (h : s.Tidy H) (slot : String) : (s.forget slot).Tidy H :=
  ⟨h.sound, h.store, fun entry hentry => h.slots entry (List.mem_filter.1 hentry).1⟩

section

variable {α : Type} {post : Heap → α → Prop} {body : Eval α} {log : Log}

/-- What is reported on a computation over the store of the session. -/
theorem report (h : s.Tidy H) (hbody : Safely [] H post body log) :
    ∃ H', H.Advances [] (log (State.start s.store)) H' ∧
      H'.Describes (body.report s.store).store ∧ ∀ a, (body.report s.store).result = .ok a →
        post H' a ∧ ∀ x stop, Event.stop x stop ∉ log (State.start s.store) := by
  obtain ⟨H', hadvances, hend⟩ := hbody (State.start s.store) h.sound H.running_nil h.store
  refine ⟨H', hadvances, ?_⟩
  unfold Eval.report
  cases hrun : body (State.start s.store) with
  | ok a state =>
      rw [hrun] at hend
      refine ⟨hend.1, ?_⟩
      rintro _ ⟨⟩
      exact hend.2
  | error stop state =>
      rw [hrun] at hend
      exact ⟨hend, nofun⟩

/-- A computation with an answer that is not kept. -/
theorem answered (h : s.Tidy H) (hbody : Safely [] H post body log) {after : Session × Reply}
    (hslots : after.1.slots = s.slots) (hstore : after.1.store = (body.report s.store).store)
    (hreply : ∀ stop, (body.report s.store).result = .error stop → after.2 = stopped stop) :
    Proceeds H after (log (State.start s.store)) := by
  obtain ⟨H', hadvances, hdescribes, hend⟩ := h.report hbody
  rw [← hstore] at hdescribes
  refine ⟨H', hadvances, h.advance hadvances.le hadvances.sound hslots hdescribes, fun hstop => ?_⟩
  cases hresult : (body.report s.store).result with
  | ok a => exact (hend a hresult).2
  | error stop =>
      rw [hreply stop hresult] at hstop
      cases stop <;> cases hstop

theorem answers (h : s.Tidy H) (hbody : Safely [] H post body log) (reply : α → Reply) :
    Proceeds H (s.answers body reply) (log (State.start s.store)) := by
  refine h.answered hbody ?_ ?_ fun stop hstop => ?_ <;> dsimp only [Session.answers]
  · cases (body.report s.store).result <;> rfl
  · cases (body.report s.store).result <;> rfl
  · rw [hstop]

end

/-- A computation with a value that goes into a slot. -/
theorem yielded (h : s.Tidy H) {body : Eval Value} {log : Log}
    (hbody : Safely [] H (fun H' v => H'.Admits [] v.Mentions) body log) (into : Option String)
    (totals : Option Counters) :
    Proceeds H (({ s with totals } : Session).yielded into (body.report s.store))
      (log (State.start s.store)) := by
  obtain ⟨H', hadvances, hdescribes, hend⟩ := h.report hbody
  have htidy : Session.Tidy H' { s with totals, store := (body.report s.store).store } :=
    h.advance hadvances.le hadvances.sound rfl hdescribes
  unfold Session.yielded
  cases hresult : (body.report s.store).result with
  | ok v => exact ⟨H', hadvances, htidy.put (hend v hresult).1 into, fun _ => (hend v hresult).2⟩
  | error stop =>
      refine ⟨H', hadvances, htidy, ?_⟩
      cases stop <;> nofun

/-- A new value that mentions no cell. -/
theorem made (h : s.Tidy H) {v : Value} (hv : H.Admits [] v.Mentions) {store : Store}
    (hcells : store.cells = s.store.cells) (into : Option String) (reply : Reply) :
    Proceeds H (({ s with store } : Session).put into v, reply) [] := by
  have htidy : Session.Tidy H { s with store } :=
    h.advance (.refl [] H) h.sound rfl (h.store.of_cells hcells)
  exact (htidy.put hv into).proceeds reply

theorem withSlot (h : s.Tidy H) {slot : String} {next : Value → Session × Reply}
    {log : Value → Log} {state : State}
    (hnext : ∀ v, H.Admits [] v.Mentions → Proceeds H (next v) (log v state)) :
    Proceeds H (s.withSlot slot next) (s.slotLog slot log state) := by
  unfold Session.withSlot slotLog
  cases hslot : s.slot? slot with
  | none => exact h.proceeds _
  | some v => exact hnext v (h.slot? hslot)

theorem withSlot_still (h : s.Tidy H) {slot : String} {next : Value → Session × Reply}
    (hnext : ∀ v, H.Admits [] v.Mentions → Proceeds H (next v) []) :
    Proceeds H (s.withSlot slot next) [] := by
  unfold Session.withSlot
  cases hslot : s.slot? slot with
  | none => exact h.proceeds _
  | some v => exact hnext v (h.slot? hslot)

end Session.Tidy

/-! ## Values written down -/

theorem Store.eagerList_mentions (store : Store) {vs : List Value}
    (hvs : ∀ v ∈ vs, ∀ x q, ¬v.Mentions x q) :
    (∀ x q, ¬(store.eagerList vs).1.Mentions x q) ∧ (store.eagerList vs).2.cells = store.cells := by
  induction vs with
  | nil => exact ⟨fun x q => by simp only [Store.eagerList, Value.Mentions, not_false_iff], rfl⟩
  | cons v vs ih =>
      rw [List.forall_mem_cons] at hvs
      obtain ⟨htail, hcells⟩ := ih hvs.2
      refine ⟨fun x q hx => ?_, hcells⟩
      simp only [Store.eagerList, Store.eagerCons, Value.Mentions, Thunk.Mentions] at hx
      exact hx.elim (hvs.1 x q) (htail x q)

mutual
/-- The value of a literal mentions no cell, and making it changes none. -/
theorem Store.ofLiteral_mentions (store : Store) : (l : Literal) →
    (∀ x q, ¬(store.ofLiteral l).1.Mentions x q) ∧ (store.ofLiteral l).2.cells = store.cells
  | .int _ | .bool _ | .prim _ =>
    ⟨fun x q => by simp only [Store.ofLiteral, Value.Mentions, not_false_iff], rfl⟩
  | .list items => by
      obtain ⟨hvalues, hcells⟩ := Store.ofLiterals_mentions store items
      obtain ⟨hlist, hcells'⟩ := (store.ofLiterals items).2.eagerList_mentions hvalues
      simp only [Store.ofLiteral]
      exact ⟨hlist, hcells'.trans hcells⟩

theorem Store.ofLiterals_mentions (store : Store) : (ls : List Literal) →
    (∀ v ∈ (store.ofLiterals ls).1, ∀ x q, ¬v.Mentions x q) ∧
      (store.ofLiterals ls).2.cells = store.cells
  | [] => ⟨by simp [Store.ofLiterals], rfl⟩
  | l :: ls => by
      obtain ⟨hvalue, hcells⟩ := Store.ofLiteral_mentions store l
      obtain ⟨hvalues, hcells'⟩ := Store.ofLiterals_mentions (store.ofLiteral l).2 ls
      simp only [Store.ofLiterals, List.forall_mem_cons]
      exact ⟨⟨hvalue, hvalues⟩, hcells'.trans hcells⟩
end

/-! ## Requests -/

section

variable {fuel : Nat} {H : Heap}

/-- Following a plan is safe if the plan mentions only cells of the heap. -/
theorem plan_safe {setting : Setting} {α β : Type} {post : Heap → α → β → Prop} {p : Plan α}
    {q : Plan β} (hrel : Plan.Related (apartKinship setting []) post H p q) :
    Safely [] H (fun H' a => ∃ b, post H' a b) (p.run (eval fuel) fuel) (p.logWith fuel) :=
  run_safe (eval_safe fuel) (compare_safe (eval_safe fuel) fuel) hrel

/-- Following the plan of a value is safe, and the value mentions only cells of the heap. -/
theorem valuePlan_safe {setting : Setting} {p q : Plan Value}
    (hrel : Plan.Related (apartKinship setting []) (apartKinship setting []).value H p q) :
    Safely [] H (fun H' v => H'.Admits [] v.Mentions) (p.run (eval fuel) fuel) (p.logWith fuel) :=
  (plan_safe hrel).mono fun _ _ ⟨_, h⟩ => h.2

theorem runProgram_safe (config : Config) (program : Expr) :
    Safely [] H (fun _ text => ∃ text', text = text') (runProgram fuel config program)
      ((programPlan config program).logWith fuel) := by
  rw [runProgram_eq_run]
  exact plan_safe
    ((apartKinship config.setting []).program_related (W := H) config.printDepth program)

theorem renderValue_safe (setting : Setting) (printDepth : Nat) {v : Value}
    (hv : H.Admits [] v.Mentions) :
    Safely [] H (fun _ text => ∃ text', text = text') (renderValue (eval fuel) printDepth v)
      ((renderPlan printDepth printDepth v .done).logWith fuel) := by
  have hrun := run_renderPlan (eval fuel) fuel printDepth printDepth v .done
  simp only [Plan.run, bind_pure] at hrun
  rw [renderValue, ← hrun]
  exact plan_safe ((apartKinship setting []).render_related (W := H) printDepth printDepth
    ⟨rfl, hv⟩ fun _ _ _ => .done rfl)

theorem lift_safe {result : Except FaultCause Value} (hplain : IsPlain result) :
    Safely [] H (fun H' v => H'.Admits [] v.Mentions) (Eval.lift result) fun _ => [] := by
  cases result with
  | ok v => exact .pure (H.admits_of_isAtom [] hplain.isAtom)
  | error cause => exact .throw _

end

/-- A request leaves a tidy session and makes the heap advance by its events. -/
theorem Session.perform_proceeds (fuel : Nat) {H : Heap} {s : Session} (h : s.Tidy H)
    (r : Request) :
    Proceeds H (s.perform fuel r) (s.requestLog fuel r (State.start s.store)) := by
  have hev : EvalSafe fuel := eval_safe fuel
  let K := apartKinship s.config.setting []
  -- A request that evaluates nothing has no events; any other one is safe in a tidy session.
  cases r with
  | policy | totals => exact h.proceeds _
  | evaluate program into => exact h.yielded (hev _ program (H.admits_empty [])) into _
  | run program =>
      refine h.answered (runProgram_safe s.config program) ?_ ?_ fun stop hstop => ?_ <;>
        dsimp only [perform]
      · cases ((runProgram fuel s.config program).report s.store).result <;> rfl
      · cases ((runProgram fuel s.config program).report s.store).result <;> rfl
      · rw [hstop]
  | evaluateUnder policy program into =>
      exact h.yielded (hev _ program (H.admits_empty [])) into s.totals
  | literal l into =>
      obtain ⟨hvalue, hcells⟩ := s.store.ofLiteral_mentions l
      exact h.made (fun x q hx => (hvalue x q hx).elim) hcells into _
  | cons head tail into =>
      refine h.withSlot_still fun x hx => h.withSlot_still fun y hy => ?_
      split
      · have hcell : H.Admits [] (s.store.eagerCons x y).1.Mentions :=
          Heap.admits_cons_iff.2 ⟨Heap.admits_ready_iff.2 hx, Heap.admits_ready_iff.2 hy⟩
        have hcells : (s.store.eagerCons x y).2.cells = s.store.cells := rfl
        exact h.made hcell hcells into _
      · exact h.proceeds _
  | head slot into =>
      refine h.withSlot fun v hv => ?_
      cases v with
      | cons tag head tail =>
          exact h.yielded (force_safe hev (Heap.admits_cons_iff.1 hv).1) into s.totals
      | int | bool | prim | nil | closure => exact h.proceeds _
  | tail slot into =>
      refine h.withSlot fun v hv => ?_
      cases v with
      | cons tag head tail =>
          have hrel : Plan.Related K K.value H (tailPlan tail) (tailPlan tail) :=
            .force ⟨rfl, (Heap.admits_cons_iff.1 hv).2⟩ fun _ _ _ _ hu =>
              Kinship.tail_related hu (.done hu)
          dsimp only
          rw [← run_tailPlan (eval fuel) fuel]
          exact h.yielded (valuePlan_safe hrel) into s.totals
      | int | bool | prim | nil | closure => exact h.proceeds _
  | inspect slot => exact h.withSlot_still fun v _ => h.proceeds _
  | drop slot => exact (h.forget slot).proceeds _
  | render slot printDepth =>
      exact h.withSlot fun v hv => h.answers (renderValue_safe s.config.setting _ hv) .text
  | equals left right =>
      refine h.withSlot fun x hx => h.withSlot fun y hy => ?_
      have htodo : ∀ c ∈ [Comparison.values x y], H.Admits [] c.Mentions :=
        List.forall_mem_singleton.2 (Heap.admits_or_iff.2 ⟨hx, hy⟩)
      exact h.answers (compare_safe hev fuel htodo) .truth
  | binary op left right into =>
      refine h.withSlot fun x hx => h.withSlot fun y hy => ?_
      rw [← run_binaryPlan]
      exact h.yielded (valuePlan_safe (K.binary_related ⟨rfl, hx⟩ ⟨rfl, hy⟩ op)) into s.totals
  | unary op slot into =>
      exact h.withSlot_still fun v _ => h.yielded (lift_safe (applyUnary_plain op v)) into s.totals
  | prim p slot into =>
      refine h.withSlot fun v hv => ?_
      rw [← run_primPlan (eval fuel) fuel]
      exact h.yielded (valuePlan_safe (K.prim_related ⟨rfl, hv⟩ p)) into s.totals
  | captures slot =>
      refine h.withSlot_still fun v _ => ?_
      cases v <;> exact h.proceeds _
  | resolve slot name into =>
      refine h.withSlot fun v hv => ?_
      cases v with
      | closure tag lambda env =>
          cases hlookup : env.lookupText name with
          | none =>
              simp only [hlookup]
              exact h.proceeds _
          | some thunk =>
              have hthunk := (Heap.admits_closure_iff.1 hv).lookupText hlookup
              simp only [hlookup]
              exact h.yielded (force_safe hev hthunk) into s.totals
      | int | bool | prim | nil | cons => exact h.proceeds _

/-! ## Whole sessions -/

/-- A session stays tidy, and its events make the heap advance. -/
theorem Session.Tidy.log_advances {H : Heap} {s : Session} (h : s.Tidy H)
    (requests : List (Nat × Request)) :
    ∃ H', H.Advances [] (s.log requests) H' ∧ (s.after requests).Tidy H' := by
  induction requests generalizing H s with
  | nil => exact ⟨H, .refl h.sound, h⟩
  | cons request requests ih =>
      obtain ⟨fuel, r⟩ := request
      obtain ⟨H₁, hadvances, htidy, -⟩ := Session.perform_proceeds fuel h r
      obtain ⟨H₂, hadvances', htidy'⟩ := ih htidy
      exact ⟨H₂, hadvances.trans hadvances', htidy'⟩

/-- Whatever a session is asked, its store cells are evaluated until that succeeds for the first
time, and never again.

From the start of a session on, the events of each cell are a life: nothing happens to the cell
while its suspension is being evaluated, the suspension is evaluated again only if that stopped
without a result, and once there is a result it is only read.  The cell is always entered for the
same suspension and never has a result already when one arrives.  Its result stays, and forcing the
cell then gives it and does nothing else.  A request that is answered evaluates the suspension of
each cell at most once. -/
theorem Session.cells_settle_once (config : Config) (counting : Bool)
    (requests : List (Nat × Request)) :
    let s := Session.start config counting
    (∀ x, Life x none (eventsOf x (s.log requests)) ((s.after requests).store.kept? x)) ∧
    (∀ x q q', Event.enter x q ∈ s.log requests → Event.enter x q' ∈ s.log requests → q = q') ∧
    (∀ x v, Event.clash x v ∉ s.log requests) ∧
    (∀ x v, (s.after requests).store.kept? x = some v →
      (∀ more, (s.after (requests ++ more)).store.kept? x = some v) ∧
      ∀ fuel q state, state.store = (s.after requests).store →
        force (eval fuel) (.byNeed x q) state = .ok v state) ∧
    ∀ fuel r, ((s.after requests).perform fuel r).2.isStop = false → ∀ x,
      (eventsOf x ((s.after requests).requestLog fuel r
        (State.start (s.after requests).store))).countP Event.isEnter ≤ 1 := by
  intro s
  obtain ⟨H, hadvances, htidy⟩ := (Session.Tidy.start config counting).log_advances requests
  have hlives : ∀ x, Life x none (eventsOf x (s.log requests))
      ((s.after requests).store.kept? x) := fun x => by
    rw [htidy.store.kept]
    exact hadvances.lives x
  refine ⟨hlives, fun x q q' hq hq' => ?_, fun x v hmem => ?_, fun x v hv => ⟨fun more => ?_, ?_⟩,
    fun fuel r hanswered x => ?_⟩
  · exact (hadvances.entered hq).unique (hadvances.entered hq')
  · exact (hlives x).clash_not_mem v (mem_eventsOf.2 ⟨hmem, rfl⟩)
  · obtain ⟨H', hadvances', htidy'⟩ := htidy.log_advances more
    have hlife := hadvances'.lives x
    rw [← htidy.store.kept, hv] at hlife
    rw [Session.after_append, htidy'.store.kept]
    exact hlife.eq_of_settled
  · intro fuel q state hstate
    exact Eval.force_of_kept (by rw [hstate, hv])
  · obtain ⟨H', hadvances', -, hstops⟩ := Session.perform_proceeds fuel htidy r
    refine (hadvances'.lives x).countP_isEnter_le fun stop hmem => ?_
    exact hstops hanswered x stop (mem_eventsOf.1 hmem).1

/-- The program `let x := 1 + 1; in x * x` enters the cell of `x` once, and the result is read at the
second use. -/
theorem Session.cells_settle_once_square :
    let place : Place := ⟨0, ⟨0, 0⟩⟩
    let x : Binder := ⟨⟨0, "x"⟩, ⟨0, 0⟩⟩
    let use : Expr := .ident place x.name
    let program : Expr := .letIn place
      [(x, .binary place .add (.int place 1) (.int place 1))] (.binary place .mul use use)
    let s := Session.start (Config.ofPolicy ⟨.need, .need⟩) true
    (s.perform 9 (.run program)).2.isStop = false ∧
      (eventsOf 0 (s.requestLog 9 (.run program) (State.start .empty))).length = 3 ∧
      (eventsOf 0 (s.requestLog 9 (.run program) (State.start .empty))).countP Event.isEnter ≤ 1 := by
  intro place x use program s
  have hanswered : (s.perform 9 (.run program)).2.isStop = false := by decide +kernel
  refine ⟨hanswered, by decide +kernel, ?_⟩
  exact (Session.cells_settle_once (Config.ofPolicy ⟨.need, .need⟩) true []).2.2.2.2 9
    (.run program) hanswered 0

end PolicyEval
