import PolicyEval.Expr
import PolicyEval.Policy

/-!
# Values and environments

Evaluation yields values: integers, truth values, primitives, closures and lists.  The parts of a
list cell and the bindings of an environment are thunks: a value, or an expression that is evaluated
when the thunk is forced.  A thunk that is evaluated at its first use keeps its result in a cell of
a store; the thunk itself never changes.

Closures, list cells and environment frames have an identity, because equality takes two of them to
be equal without a look inside when they are one and the same.  Each carries a tag, and no two that
were made by different steps carry the same one.

* `Value`, `Thunk`, `Suspension`, `Env` — the data of an evaluation.
* `Description` — what error messages say of a value.
-/

namespace PolicyEval

/-- A function as it is written: its node, its parameters and its body. -/
structure Lambda where
  place : Place
  params : List Binder
  body : Expr
deriving Inhabited

namespace Lambda

/-- The number of parameters. -/
def arity (l : Lambda) : Nat := l.params.length

/-- The expression that the function is. -/
def expr (l : Lambda) : Expr := .map l.place l.params l.body

end Lambda

mutual
/-- Values. -/
inductive Value where
  /-- An integer. -/
  | int (n : Int)
  /-- A truth value. -/
  | bool (b : Bool)
  /-- A primitive function. -/
  | prim (p : Prim)
  /-- A function with the environment in which it was met. -/
  | closure (tag : Nat) (lambda : Lambda) (env : Env)
  /-- The empty list. -/
  | nil
  /-- A list cell. -/
  | cons (tag : Nat) (head tail : Thunk)

/-- A value, or an expression to be evaluated when the value is asked for. -/
inductive Thunk where
  /-- A value. -/
  | ready (v : Value)
  /-- An expression that is evaluated at every use. -/
  | byName (s : Suspension)
  /-- An expression that is evaluated at its first use; the result is kept in the store cell with
  this address. -/
  | byNeed (address : Nat) (s : Suspension)

/-- An expression with all that its evaluation needs. -/
inductive Suspension where
  | mk (setting : Setting) (env : Env) (expr : Expr)

/-- The bindings in force, innermost first. -/
inductive Env where
  /-- No binding. -/
  | empty
  /-- A binding in front of others. -/
  | frame (tag : Nat) (name : Name) (thunk : Thunk) (rest : Env)
end

instance : Inhabited Value := ⟨.nil⟩

instance : Inhabited Env := ⟨.empty⟩

/-! ## Environments -/

namespace Env

/-- The innermost binding of a name. -/
def lookup (name : Name) : Env → Option Thunk
  | empty => none
  | frame _ bound thunk rest => if bound.same name then some thunk else rest.lookup name

/-- The innermost binding of the name with the given text. -/
def lookupText (text : String) : Env → Option Thunk
  | empty => none
  | frame _ bound thunk rest => if bound.text = text then some thunk else rest.lookupText text

/-- The bound names, innermost first. -/
def names : Env → List Name
  | empty => []
  | frame _ bound _ rest => bound :: rest.names

/-- Whether there is no binding. -/
def isEmpty : Env → Bool
  | empty => true
  | frame .. => false

/-- Whether two environments are one and the same chain of frames. -/
def same : Env → Env → Bool
  | empty, empty => true
  | frame a _ _ _, frame b _ _ _ => a == b
  | _, _ => false

/-- The names of an environment in brackets, each by its number. -/
def listing (env : Env) : String :=
  "[" ++ String.intercalate ", " (env.names.map Name.listing) ++ "]"

end Env

/-! ## Views of values -/

namespace Value

/-- Whether the value can be called. -/
def isFunction : Value → Bool
  | closure .. | prim _ => true
  | _ => false

/-- Whether the value is a list. -/
def isList : Value → Bool
  | nil | cons .. => true
  | _ => false

end Value

/-- What error messages say of a value. -/
inductive Description where
  | integer (n : Int)
  | boolean (b : Bool)
  | primitive (p : Prim)
  | closure (arity : Nat)
  | emptyList
  | nonEmptyList
deriving DecidableEq

/-- The phrase of a description. -/
def Description.text : Description → String
  | integer n => s!"integer `{n}`"
  | boolean b => s!"boolean `{b}`"
  | primitive p => s!"primitive `{p.name}`"
  | closure arity => s!"a closure of arity {arity}"
  | emptyList => "the empty list"
  | nonEmptyList => "a non-empty list"

namespace Value

/-- The description of a value. -/
def describe : Value → Description
  | int n => .integer n
  | bool b => .boolean b
  | prim p => .primitive p
  | closure _ lambda _ => .closure lambda.arity
  | nil => .emptyList
  | cons .. => .nonEmptyList

/-- The outermost layer of a value as a listing shows it. -/
def listing : Value → String
  | int n => s!"Int({n})"
  | bool b => s!"Bool({b})"
  | prim p => s!"Prim({p.tag})"
  | closure _ lambda _ =>
    s!"Closure(Closure \x7b lambda: ExprId({lambda.place.id}), arity: {lambda.arity}, .. \x7d)"
  | nil => "Null"
  | cons .. => "Cons(..)"

end Value

end PolicyEval
