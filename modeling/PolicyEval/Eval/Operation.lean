import PolicyEval.Eval.Basic

/-!
# Operations on known operands

Operators and primitives that need nothing but the outermost layer of their operands.  Arithmetic is
exact on 64-bit integers: a result that does not fit is a fault, never a wrapped number.  Division
goes toward zero.

* `checkedInt` — an integer if it fits.
* `applyUnary` — the unary operators.
* `onInts`, `onOrder`, `onBools` — the binary operators by the kind of their operands.
-/

namespace PolicyEval

/-- The least integer of the language. -/
def intMin : Int := -9223372036854775808

/-- The greatest integer of the language. -/
def intMax : Int := 9223372036854775807

/-- An integer, if the language has it; otherwise the operation overflows. -/
def checkedInt (operation : Operation) (n : Int) : Except FaultCause Value :=
  if intMin ≤ n ∧ n ≤ intMax then .ok (.int n) else .error (.integerOverflow operation)

/-- The integer that an operation was given. -/
def intOperand (operation : Operation) : Value → Except FaultCause Int
  | .int n => .ok n
  | v => .error (.typeMismatch operation v.describe)

/-- The truth value that an operation was given. -/
def boolOperand (operation : Operation) : Value → Except FaultCause Bool
  | .bool b => .ok b
  | v => .error (.typeMismatch operation v.describe)

/-- A unary operator applied to a value. -/
def applyUnary (op : UnaryOp) (v : Value) : Except FaultCause Value :=
  match op with
  | .pos => do return .int (← intOperand (.unary op) v)
  | .neg => do checkedInt (.unary op) (-(← intOperand (.unary op) v))
  | .not => do return .bool !(← boolOperand (.unary op) v)

/-- The quotient of two integers, cut off toward zero. -/
def divide (a b : Int) : Except FaultCause Value :=
  if b = 0 then .error .divisionByZero else checkedInt (.binary .div) (a.tdiv b)

/-- A binary operator on integers; the left operand is looked at first. -/
def onInts (op : BinaryOp) (left right : Value) (apply : Int → Int → Except FaultCause Value) :
    Except FaultCause Value := do
  let a ← intOperand (.binary op) left
  let b ← intOperand (.binary op) right
  apply a b

/-- A comparison of integers by their order. -/
def onOrder (op : BinaryOp) (left right : Value) (holds : Int → Int → Bool) :
    Except FaultCause Value :=
  onInts op left right fun a b => .ok (.bool (holds a b))

/-- A binary operator on truth values; the left operand is looked at first. -/
def onBools (op : BinaryOp) (left right : Value) (apply : Bool → Bool → Bool) :
    Except FaultCause Value := do
  let a ← boolOperand (.binary op) left
  let b ← boolOperand (.binary op) right
  return .bool (apply a b)

end PolicyEval
