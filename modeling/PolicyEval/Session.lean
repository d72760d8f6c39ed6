import PolicyEval.Program
import PolicyEval.Session.Request

/-!
# Sessions — values kept between evaluations

A session evaluates programs under one configuration and keeps values in named slots.  Values can be
inspected, forced, compared and combined after the evaluation that made them has ended; a delayed
part still runs under the setting of its own evaluation then, from depth zero, and what it does is
not added to the totals of the session.

* `Session` — configuration, totals, store and slots.
* `Session.perform` — performs one request.
-/

namespace PolicyEval

/-- What a session remembers. -/
structure Session where
  config : Config
  totals : Option Counters
  store : Store
  slots : List (String × Value)

namespace Session

/-- A session in which nothing has happened; it counts if told so. -/
def start (config : Config) (counting : Bool) : Session :=
  ⟨config, if counting then some .zero else none, .empty, []⟩

/-- The value in a slot. -/
def slot? (s : Session) (slot : String) : Option Value := s.slots.lookup slot

/-- Puts a value into a slot, if one is named. -/
def put (s : Session) (into : Option String) (v : Value) : Session :=
  match into with
  | some slot => { s with slots := (slot, v) :: s.slots.filter fun entry => entry.1 != slot }
  | none => s

/-- Forgets a slot. -/
def forget (s : Session) (slot : String) : Session :=
  { s with slots := s.slots.filter fun entry => entry.1 != slot }

/-- Adds the profile of an evaluation to the totals. -/
def addProfile (s : Session) (profile : Counters) : Session :=
  { s with totals := s.totals.map fun totals => totals.merge profile }

/-- The reply to a computation that stopped. -/
def stopped : Stop → Reply
  | .fault f => .fault f
  | .outOfFuel => .outOfFuel

/-- The session and the reply after a computation with a value. -/
def yielded (s : Session) (into : Option String) (r : Report Value) : Session × Reply :=
  let s := { s with store := r.store }
  match r.result with
  | .ok v => (s.put into v, .value v)
  | .error stop => (s, stopped stop)

/-- Runs a computation with a value on kept values; it is not counted. -/
def yields (s : Session) (into : Option String) (body : Eval Value) : Session × Reply :=
  s.yielded into (body.report s.store)

/-- Runs a computation with an answer on kept values; it is not counted. -/
def answers {α : Type} (s : Session) (body : Eval α) (reply : α → Reply) : Session × Reply :=
  let r := body.report s.store
  let s := { s with store := r.store }
  match r.result with
  | .ok a => (s, reply a)
  | .error stop => (s, stopped stop)

/-- Goes on with the value in a slot. -/
def withSlot (s : Session) (slot : String) (next : Value → Session × Reply) : Session × Reply :=
  match s.slot? slot with
  | some v => next v
  | none => (s, .noSuchSlot slot)

/-- Goes on with the closure in a slot. -/
def withClosure (s : Session) (slot : String) (next : Env → Session × Reply) : Session × Reply :=
  s.withSlot slot fun
    | .closure _ _ env => next env
    | v => (s, .notAClosure v.describe)

/-- Goes on with the parts of the list cell in a slot. -/
def withCell (s : Session) (slot : String) (next : Thunk → Thunk → Session × Reply) :
    Session × Reply :=
  s.withSlot slot fun
    | .cons _ head tail => next head tail
    | v => (s, .notACell v.describe)

/-- Performs one request. -/
def perform (fuel : Nat) (s : Session) : Request → Session × Reply
  | .policy => (s, .policy s.config.setting.policy)
  | .totals => (s, .totals s.totals)
  | .evaluate program into =>
    let r := (evalProgram fuel s.config.setting program).report s.store
    (s.addProfile r.profile).yielded into r
  | .run program =>
    let r := (runProgram fuel s.config program).report s.store
    let s := { s.addProfile r.profile with store := r.store }
    match r.result with
    | .ok text => (s, .text text)
    | .error stop => (s, stopped stop)
  | .evaluateUnder policy program into =>
    s.yields into (evalProgram fuel (Config.ofPolicy policy).setting program)
  | .literal l into =>
    let (v, store) := s.store.ofLiteral l
    ({ s with store }.put into v, .value v)
  | .cons head tail into =>
    s.withSlot head fun x => s.withSlot tail fun y =>
      if y.isList then
        let (v, store) := s.store.eagerCons x y
        ({ s with store }.put into v, .value v)
      else (s, .notAList y.describe)
  | .head slot into => s.withCell slot fun head _ => s.yields into (force (eval fuel) head)
  | .tail slot into => s.withCell slot fun _ tail => s.yields into (forceTail (eval fuel) tail)
  | .inspect slot => s.withSlot slot fun v => (s, .value v)
  | .drop slot => (s.forget slot, .truth (s.slot? slot).isSome)
  | .render slot printDepth =>
    s.withSlot slot fun v =>
      s.answers (renderValue (eval fuel) (printDepth.getD s.config.printDepth) v) .text
  | .equals left right =>
    s.withSlot left fun x => s.withSlot right fun y =>
      s.answers (equal (eval fuel) fuel x y) .truth
  | .binary op left right into =>
    s.withSlot left fun x => s.withSlot right fun y =>
      s.yields into (applyBinary (eval fuel) fuel op x y)
  | .unary op slot into =>
    s.withSlot slot fun v => s.yields into (Eval.lift (applyUnary op v))
  | .prim p slot into => s.withSlot slot fun v => s.yields into (applyPrim (eval fuel) p v)
  | .captures slot => s.withClosure slot fun env => (s, .env env)
  | .resolve slot name into =>
    s.withClosure slot fun env =>
      match env.lookupText name with
      | some thunk => s.yields into (force (eval fuel) thunk)
      | none => (s, .unbound)

end Session

end PolicyEval
