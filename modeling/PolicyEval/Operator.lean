/-!
# Operators and primitive functions

The fixed vocabulary of the language: twelve binary operators in five precedence levels, three
unary operators and nine primitive functions.  Each has one written form, and `BinaryOp.ofSymbol?`
and `Prim.ofName?` read it back.
-/

namespace PolicyEval

/-- The binary operators. -/
inductive BinaryOp where
  | add | sub | mul | div
  | eq | ne | lt | gt | le | ge
  | and | or
deriving DecidableEq, Inhabited

namespace BinaryOp

/-- All binary operators. -/
def all : List BinaryOp := [add, sub, mul, div, eq, ne, lt, gt, le, ge, and, or]

/-- The written form of an operator. -/
def symbol : BinaryOp → String
  | add => "+"
  | sub => "-"
  | mul => "*"
  | div => "/"
  | eq => "="
  | ne => "!="
  | lt => "<"
  | gt => ">"
  | le => "<="
  | ge => ">="
  | and => "&"
  | or => "|"

/-- The precedence level: an operator of a higher level binds tighter. -/
def precedence : BinaryOp → Nat
  | or => 1
  | and => 2
  | eq | ne | lt | gt | le | ge => 3
  | add | sub => 4
  | mul | div => 5

/-- Whether the operator computes a number from two numbers. -/
def isArithmetic : BinaryOp → Bool
  | add | sub | mul | div => true
  | _ => false

/-- The operator with the given written form. -/
def ofSymbol? (s : String) : Option BinaryOp := all.find? fun op => op.symbol == s

theorem precedence_pos (op : BinaryOp) : 1 ≤ op.precedence := by
  cases op <;> decide

theorem precedence_le (op : BinaryOp) : op.precedence ≤ 5 := by
  cases op <;> decide

theorem ofSymbol?_symbol (op : BinaryOp) : ofSymbol? op.symbol = some op := by
  cases op <;> rfl

end BinaryOp

/-- The unary operators. -/
inductive UnaryOp where
  | pos | neg | not
deriving DecidableEq, Inhabited

namespace UnaryOp

/-- All unary operators. -/
def all : List UnaryOp := [pos, neg, not]

/-- The written form of an operator. -/
def symbol : UnaryOp → String
  | pos => "+"
  | neg => "-"
  | not => "~"

/-- The operator with the given written form. -/
def ofSymbol? (s : String) : Option UnaryOp := all.find? fun op => op.symbol == s

theorem ofSymbol?_symbol (op : UnaryOp) : ofSymbol? op.symbol = some op := by
  cases op <;> rfl

end UnaryOp

/-- The primitive functions. -/
inductive Prim where
  | isNumber | isFunction | isList | isCons | isNull
  | arity | cons | first | rest
deriving DecidableEq, Inhabited

namespace Prim

/-- All primitive functions. -/
def all : List Prim := [isNumber, isFunction, isList, isCons, isNull, arity, cons, first, rest]

/-- The word by which programs call the primitive. -/
def name : Prim → String
  | isNumber => "number?"
  | isFunction => "function?"
  | isList => "list?"
  | isCons => "cons?"
  | isNull => "null?"
  | arity => "arity"
  | cons => "cons"
  | first => "first"
  | rest => "rest"

/-- The tag of the primitive in value listings. -/
def tag : Prim → String
  | isNumber => "NumberP"
  | isFunction => "FunctionP"
  | isList => "ListP"
  | isCons => "ConsP"
  | isNull => "NullP"
  | arity => "Arity"
  | cons => "Cons"
  | first => "First"
  | rest => "Rest"

/-- The number of arguments that the primitive takes. -/
def argCount : Prim → Nat
  | cons => 2
  | _ => 1

/-- The primitive called by the given word. -/
def ofName? (s : String) : Option Prim := all.find? fun p => p.name == s

theorem ofName?_name (p : Prim) : ofName? p.name = some p := by
  cases p <;> rfl

end Prim

end PolicyEval
