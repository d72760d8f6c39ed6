import PolicyEval.Counters
import PolicyEval.Fault
import PolicyEval.Literal

/-!
# Requests and replies of a session

* `Shallow` — the outermost layer of a value, which can be looked at without forcing anything.
* `Request` — what a session can be asked.
* `Reply` — what it answers.
-/

namespace PolicyEval

/-- The outermost layer of a value; of a list cell it says which parts are known. -/
inductive Shallow where
  | int (n : Int)
  | bool (b : Bool)
  | prim (p : Prim)
  | closure (node arity : Nat)
  | nil
  | cons (headForced tailForced : Bool)
deriving DecidableEq

/-- The outermost layer of a value. -/
def Store.shallow (s : Store) : Value → Shallow
  | .int n => .int n
  | .bool b => .bool b
  | .prim p => .prim p
  | .closure _ lambda _ => .closure lambda.place.id lambda.arity
  | .nil => .nil
  | .cons _ head tail => .cons (s.isForced head) (s.isForced tail)

/-- What a session can be asked.  Requests that yield a value may name a slot for it. -/
inductive Request where
  /-- The policy of the session. -/
  | policy
  /-- The totals of the evaluations so far. -/
  | totals
  /-- The value of a program. -/
  | evaluate (program : Expr) (into : Option String)
  /-- The text of a program's value. -/
  | run (program : Expr)
  /-- The value of a program under a policy of its own, with default limits and not counted. -/
  | evaluateUnder (policy : Policy) (program : Expr) (into : Option String)
  /-- A value written down. -/
  | literal (l : Literal) (into : Option String)
  /-- A new list cell with known parts. -/
  | cons (head tail : String) (into : Option String)
  /-- The first part of a list cell. -/
  | head (slot : String) (into : Option String)
  /-- The second part of a list cell. -/
  | tail (slot : String) (into : Option String)
  /-- The outermost layer of a value. -/
  | inspect (slot : String)
  /-- Forgets a slot. -/
  | drop (slot : String)
  /-- The text of a value under a print depth, by default that of the session. -/
  | render (slot : String) (printDepth : Option Nat)
  /-- Whether two values are equal. -/
  | equals (left right : String)
  /-- A binary operator on two values, strict in both. -/
  | binary (op : BinaryOp) (left right : String) (into : Option String)
  /-- A unary operator on a value. -/
  | unary (op : UnaryOp) (slot : String) (into : Option String)
  /-- A primitive on one value. -/
  | prim (p : Prim) (slot : String) (into : Option String)
  /-- The environment of a closure. -/
  | captures (slot : String)
  /-- The innermost binding of a name in the environment of a closure. -/
  | resolve (slot name : String) (into : Option String)

/-- What a session answers. -/
inductive Reply where
  | policy (p : Policy)
  | totals (c : Option Counters)
  | value (v : Value)
  | text (s : String)
  | truth (b : Bool)
  | env (env : Env)
  /-- The name has no binding. -/
  | unbound
  /-- The evaluation failed. -/
  | fault (f : Fault)
  /-- The evaluation did not end within its fuel. -/
  | outOfFuel
  /-- There is no slot of that name. -/
  | noSuchSlot (slot : String)
  /-- The value is no list. -/
  | notAList (found : Description)
  /-- The value is no list cell. -/
  | notACell (found : Description)
  /-- The value is no closure. -/
  | notAClosure (found : Description)

end PolicyEval
