import PolicyEval.Proofs.Scope.Captured
import PolicyEval.Session

/-!
# Checked programs never meet an unbound variable

A program that passes the lexical check is evaluated in the empty environment, which binds all its
variables because it has none that are free.  From there the property of captured environments is
carried through everything that a session does: evaluating and running programs under any policy,
forcing the parts of kept list cells, rendering, comparing, and resolving captured bindings.

* `Session.WellScoped` — every value that the session keeps is well-scoped.
* `Session.perform_keeps` — one request keeps this and is not answered by an unbound variable.
* `Session.unboundVariable_not_mem_replies` — no reply of a session to checked programs reports one.
-/

namespace PolicyEval

/-! ## Programs and values written down -/

/-- The lexical check of a whole program is the check within the empty environment. -/
theorem Env.binds_empty {root : Expr} (h : checkLexical root = .ok ()) : Env.empty.Binds root := h

theorem evalProgram_keeps (fuel : Nat) (setting : Setting) {root : Expr}
    (h : checkLexical root = .ok ()) :
    (evalProgram fuel setting root).KeepsScopes Value.WellScoped :=
  eval_keeps fuel setting .empty root (by simp only [Env.WellScoped]) (Env.binds_empty h)

theorem renderValue_keeps (fuel printDepth : Nat) {v : Value} (hv : v.WellScoped) :
    (renderValue (eval fuel) printDepth v).KeepsScopes fun _ => True :=
  renderIn_keeps (eval_keeps fuel) printDepth printDepth v hv

theorem runProgram_keeps (fuel : Nat) (config : Config) {root : Expr}
    (h : checkLexical root = .ok ()) : (runProgram fuel config root).KeepsScopes fun _ => True :=
  Eval.Keeps.bind (evalProgram_keeps fuel config.setting h) fun _ hv =>
    renderValue_keeps fuel config.printDepth hv

theorem Store.WellScoped.eagerList {store : Store} (h : store.WellScoped) (vs : List Value)
    (hvs : ∀ v ∈ vs, v.WellScoped) :
    (store.eagerList vs).1.WellScoped ∧ (store.eagerList vs).2.WellScoped := by
  induction vs with
  | nil => exact ⟨by simp only [Store.eagerList, Value.WellScoped], h⟩
  | cons v vs ih =>
      rw [List.forall_mem_cons] at hvs
      obtain ⟨htail, hstore⟩ := ih hvs.2
      refine ⟨?_, hstore.of_cells rfl⟩
      simp only [Store.eagerList, Store.eagerCons, Value.WellScoped, Thunk.WellScoped]
      exact ⟨hvs.1, htail⟩

mutual
theorem Store.WellScoped.ofLiteral {store : Store} (h : store.WellScoped) : (l : Literal) →
    (store.ofLiteral l).1.WellScoped ∧ (store.ofLiteral l).2.WellScoped
  | .int _ | .bool _ | .prim _ => ⟨by simp only [Store.ofLiteral, Value.WellScoped], h⟩
  | .list items => by
      obtain ⟨hvalues, hstore⟩ := Store.WellScoped.ofLiterals h items
      simpa only [Store.ofLiteral] using hstore.eagerList _ hvalues

theorem Store.WellScoped.ofLiterals {store : Store} (h : store.WellScoped) :
    (ls : List Literal) →
    (∀ v ∈ (store.ofLiterals ls).1, v.WellScoped) ∧ (store.ofLiterals ls).2.WellScoped
  | [] => ⟨by simp [Store.ofLiterals], h⟩
  | l :: ls => by
      obtain ⟨hvalue, hstore⟩ := Store.WellScoped.ofLiteral h l
      obtain ⟨hvalues, hstore'⟩ := Store.WellScoped.ofLiterals hstore ls
      simp only [Store.ofLiterals, List.forall_mem_cons]
      exact ⟨⟨hvalue, hvalues⟩, hstore'⟩
end

/-! ## Sessions -/

/-- All that the session keeps is well-scoped. -/
structure Session.WellScoped (s : Session) : Prop where
  store : s.store.WellScoped
  slots : ∀ entry ∈ s.slots, entry.2.WellScoped

/-- The program that a request brings with it. -/
def Request.program? : Request → Option Expr
  | .evaluate program _ | .run program | .evaluateUnder _ program _ => some program
  | _ => none

/-- A program that comes with the request passes the lexical check. -/
def Request.IsChecked (r : Request) : Prop :=
  ∀ program, r.program? = some program → checkLexical program = .ok ()

/-- The reply does not report a variable without a binding. -/
def Reply.IsBound : Reply → Prop
  | .fault f => f.cause.isUnbound = false
  | _ => True

theorem Session.stopped_isBound {stop : Stop} (h : stop.IsBound) : (stopped stop).IsBound := by
  cases stop with
  | fault f => exact h
  | outOfFuel => trivial

namespace Session.WellScoped

variable {s : Session}

theorem slot? (h : s.WellScoped) {slot : String} {v : Value} (hv : s.slot? slot = some v) :
    v.WellScoped := by
  obtain ⟨before, after, hslots, -⟩ := List.lookup_eq_some_iff.1 hv
  exact h.slots (slot, v) (by rw [hslots]; simp)

theorem put (h : s.WellScoped) {v : Value} (hv : v.WellScoped) (into : Option String) :
    (s.put into v).WellScoped := by
  cases into with
  | none => exact h
  | some slot =>
      refine ⟨h.store, List.forall_mem_cons.2 ⟨hv, ?_⟩⟩
      intro entry hentry
      exact h.slots entry (List.mem_filter.1 hentry).1

theorem withStore (h : s.WellScoped) {store : Store} (hstore : store.WellScoped) :
    ({ s with store } : Session).WellScoped :=
  ⟨hstore, h.slots⟩

theorem addProfile (h : s.WellScoped) (profile : Counters) : (s.addProfile profile).WellScoped :=
  ⟨h.store, h.slots⟩

theorem forget (h : s.WellScoped) (slot : String) : (s.forget slot).WellScoped :=
  ⟨h.store, fun entry hentry => h.slots entry (List.mem_filter.1 hentry).1⟩

end Session.WellScoped

/-- The session keeps well-scoped values only, and the reply does not report an unbound variable. -/
def Session.Safe (after : Session × Reply) : Prop := after.1.WellScoped ∧ after.2.IsBound

namespace Session.WellScoped

variable {s : Session} (h : s.WellScoped)
include h

theorem yielded {body : Eval Value} (hbody : body.KeepsScopes Value.WellScoped) {store : Store}
    (hstore : store.WellScoped) (into : Option String) :
    Safe (s.yielded into (body.report store)) := by
  have hrun := hbody (State.start store) hstore
  unfold Eval.report
  cases hend : body (State.start store) with
  | ok v state =>
      rw [hend] at hrun
      exact ⟨(h.withStore hrun.1).put hrun.2 into, trivial⟩
  | error stop state =>
      rw [hend] at hrun
      exact ⟨h.withStore hrun.1, stopped_isBound hrun.2⟩

theorem yields {body : Eval Value} (hbody : body.KeepsScopes Value.WellScoped)
    (into : Option String) : Safe (s.yields into body) :=
  h.yielded hbody h.store into

theorem answers {α : Type} {body : Eval α} (hbody : body.KeepsScopes fun _ => True)
    {reply : α → Reply} (hreply : ∀ a, (reply a).IsBound) : Safe (s.answers body reply) := by
  have hrun := hbody (State.start s.store) h.store
  unfold Session.answers Eval.report
  cases hend : body (State.start s.store) with
  | ok a state =>
      rw [hend] at hrun
      exact ⟨h.withStore hrun.1, hreply a⟩
  | error stop state =>
      rw [hend] at hrun
      exact ⟨h.withStore hrun.1, stopped_isBound hrun.2⟩

theorem withSlot {slot : String} {next : Value → Session × Reply}
    (hnext : ∀ v, v.WellScoped → Safe (next v)) : Safe (s.withSlot slot next) := by
  unfold Session.withSlot
  cases hslot : s.slot? slot with
  | none => exact ⟨h, trivial⟩
  | some v => exact hnext v (h.slot? hslot)

theorem withClosure {slot : String} {next : Env → Session × Reply}
    (hnext : ∀ env, env.WellScoped → Safe (next env)) : Safe (s.withClosure slot next) := by
  refine h.withSlot fun v hv => ?_
  cases v with
  | closure tag lambda env =>
      simp only [Value.WellScoped] at hv
      exact hnext env hv.2
  | int | bool | prim | nil | cons => exact ⟨h, trivial⟩

theorem withCell {slot : String} {next : Thunk → Thunk → Session × Reply}
    (hnext : ∀ head tail, head.WellScoped → tail.WellScoped → Safe (next head tail)) :
    Safe (s.withCell slot next) := by
  refine h.withSlot fun v hv => ?_
  cases v with
  | cons tag head tail =>
      simp only [Value.WellScoped] at hv
      exact hnext head tail hv.1 hv.2
  | int | bool | prim | nil | closure => exact ⟨h, trivial⟩

end Session.WellScoped

/-- A request whose program passes the lexical check leaves all kept values well-scoped, and its
reply does not report a variable without a binding. -/
theorem Session.perform_keeps (fuel : Nat) {s : Session} (h : s.WellScoped) {r : Request}
    (hr : r.IsChecked) : Safe (s.perform fuel r) := by
  have hev := eval_keeps fuel
  cases r with
  | policy | totals => exact ⟨h, trivial⟩
  | evaluate program into =>
      exact (h.addProfile _).yielded (evalProgram_keeps fuel _ (hr program rfl)) h.store into
  | run program =>
      have hrun := runProgram_keeps fuel s.config (hr program rfl) (State.start s.store) h.store
      cases hend : runProgram fuel s.config program (State.start s.store) with
      | ok text state =>
          rw [hend] at hrun
          simp only [Session.perform, Eval.report, hend]
          exact ⟨(h.addProfile _).withStore hrun.1, trivial⟩
      | error stop state =>
          rw [hend] at hrun
          simp only [Session.perform, Eval.report, hend]
          exact ⟨(h.addProfile _).withStore hrun.1, stopped_isBound hrun.2⟩
  | evaluateUnder policy program into =>
      exact h.yields (evalProgram_keeps fuel _ (hr program rfl)) into
  | literal l into =>
      obtain ⟨hvalue, hstore⟩ := Store.WellScoped.ofLiteral h.store l
      exact ⟨(h.withStore hstore).put hvalue into, trivial⟩
  | cons head tail into =>
      refine h.withSlot fun x hx => h.withSlot fun y hy => ?_
      split
      · have hstore : (s.store.eagerCons x y).2.WellScoped := h.store.of_cells rfl
        have hcell : (s.store.eagerCons x y).1.WellScoped := by
          simp only [Store.eagerCons, Value.WellScoped, Thunk.WellScoped]
          exact ⟨hx, hy⟩
        exact ⟨(h.withStore hstore).put hcell into, trivial⟩
      · exact ⟨h, trivial⟩
  | head slot into => exact h.withCell fun head _ hhead _ => h.yields (force_keeps hev hhead) into
  | tail slot into => exact h.withCell fun _ tail _ htail => h.yields (forceTail_keeps hev htail) into
  | inspect slot => exact h.withSlot fun v _ => ⟨h, trivial⟩
  | drop slot => exact ⟨h.forget slot, trivial⟩
  | render slot printDepth =>
      exact h.withSlot fun v hv => h.answers (renderValue_keeps fuel _ hv) fun _ => trivial
  | equals left right =>
      exact h.withSlot fun x hx => h.withSlot fun y hy =>
        h.answers (equal_keeps hev fuel hx hy) fun _ => trivial
  | binary op left right into =>
      exact h.withSlot fun x hx => h.withSlot fun y hy =>
        h.yields (applyBinary_keeps hev fuel hx hy) into
  | unary op slot into =>
      exact h.withSlot fun v _ => h.yields (Eval.KeepsScopes.liftPlain (applyUnary_plain op v)) into
  | prim p slot into => exact h.withSlot fun v hv => h.yields (applyPrim_keeps hev hv) into
  | captures slot => exact h.withClosure fun env _ => ⟨h, trivial⟩
  | resolve slot name into =>
      refine h.withClosure fun env henv => ?_
      cases hlookup : env.lookupText name with
      | none => exact ⟨h, trivial⟩
      | some thunk => exact h.yields (force_keeps hev (henv.lookupText hlookup)) into

/-! ## Whole sessions -/

/-- The replies of a session to requests that it performs one after another, each with the fuel that
stands beside it. -/
def Session.replies (s : Session) : List (Nat × Request) → List Reply
  | [] => []
  | (fuel, r) :: requests =>
    let (s, reply) := s.perform fuel r
    reply :: s.replies requests

theorem Session.WellScoped.start (config : Config) (counting : Bool) :
    (Session.start config counting).WellScoped :=
  ⟨Store.WellScoped.empty, by simp [Session.start]⟩

theorem Session.WellScoped.replies_isBound {s : Session} (h : s.WellScoped)
    (requests : List (Nat × Request)) (hrequests : ∀ r ∈ requests, r.2.IsChecked) :
    ∀ reply ∈ s.replies requests, reply.IsBound := by
  induction requests generalizing s with
  | nil => simp [Session.replies]
  | cons request requests ih =>
      obtain ⟨fuel, r⟩ := request
      rw [List.forall_mem_cons] at hrequests
      obtain ⟨hsession, hreply⟩ := Session.perform_keeps fuel h hrequests.1
      simp only [Session.replies, List.forall_mem_cons]
      exact ⟨hreply, ih hsession hrequests.2⟩

/-- A session that evaluates and runs only programs that pass the lexical check never reports an
unbound variable: not from the programs themselves, whatever the policy, the depth limit, the print
depth and the fuel, and not from anything that is done later with the values they yielded. -/
theorem Session.unboundVariable_not_mem_replies (config : Config) (counting : Bool)
    (requests : List (Nat × Request)) (hchecked : ∀ r ∈ requests, r.2.IsChecked)
    (name : Name) (span : Option Span) :
    Reply.fault ⟨.unboundVariable name, span⟩ ∉ (Session.start config counting).replies requests := by
  intro hmem
  have hbound :=
    (Session.WellScoped.start config counting).replies_isBound requests hchecked _ hmem
  simp [Reply.IsBound, FaultCause.isUnbound] at hbound

/-- The list `cons(1, null)` is bound to a name that a closure captures; the closure leaves the
scope of that name, and the binding is resolved and taken apart afterwards. -/
theorem Session.unboundVariable_not_mem_replies_captured :
    let place : Place := ⟨0, ⟨0, 0⟩⟩
    let list : Binder := ⟨⟨1, "list"⟩, ⟨0, 0⟩⟩
    let program : Expr := .letIn place
      [(list, .call place (.prim place .cons) [.int place 1, .null place])]
      (.map place [] (.ident place list.name))
    let requests : List (Nat × Request) :=
      [(9, .evaluate program (some "f")), (9, .resolve "f" "list" (some "l")), (9, .head "l" none),
        (9, .equals "l" "l"), (9, .render "f" none)]
    (∀ r ∈ requests, r.2.IsChecked) ∧
      Reply.fault ⟨.unboundVariable list.name, none⟩ ∉
        (Session.start (Config.ofPolicy ⟨.need, .name⟩) true).replies requests := by
  intro place list program requests
  have hchecked : ∀ r ∈ requests, r.2.IsChecked := by
    simp only [requests, List.forall_mem_cons, List.not_mem_nil, Request.IsChecked,
      Request.program?, Option.some.injEq, reduceCtorEq]
    refine ⟨?_, by simp, by simp, by simp, by simp, by simp⟩
    rintro checked rfl
    rfl
  exact ⟨hchecked, Session.unboundVariable_not_mem_replies _ true requests hchecked _ none⟩

end PolicyEval
