import PolicyEval.Eval

/-!
# What operators yield

The operators that look at nothing but the outermost layer of their operands yield an integer or a
truth value, and their failures are about an operand or a result, never about a variable.

* `Value.IsScalar` — integers and truth values.
* `strictBinary`, `Prim.inspect` — the operators and primitives that need no state.
* `applyBinary_eq_lift`, `applyPrim_eq_lift` — applying one of them is applying these functions.
* `applyUnary_congr`, `strictBinary_congr`, `Prim.inspect_congr` — they see descriptions only.
* `applyUnary_plain`, `strictBinary_plain`, `Prim.inspect_plain` — they yield scalars.
-/

namespace PolicyEval

/-- Integers and truth values, the values without parts. -/
def Value.IsScalar : Value → Prop
  | .int _ | .bool _ => True
  | _ => False

/-- Whether the failure is about a variable without a binding. -/
def FaultCause.isUnbound : FaultCause → Bool
  | .unboundVariable _ => true
  | _ => false

/-- A binary operator that looks at the outermost layer of its operands only; `none` for the two
that compare their operands in full. -/
def strictBinary (op : BinaryOp) (left right : Value) : Option (Except FaultCause Value) :=
  match op with
  | .eq | .ne => none
  | .add => some (onInts op left right fun a b => checkedInt (.binary op) (a + b))
  | .sub => some (onInts op left right fun a b => checkedInt (.binary op) (a - b))
  | .mul => some (onInts op left right fun a b => checkedInt (.binary op) (a * b))
  | .div => some (onInts op left right divide)
  | .lt => some (onOrder op left right fun a b => decide (a < b))
  | .gt => some (onOrder op left right fun a b => decide (b < a))
  | .le => some (onOrder op left right fun a b => decide (a ≤ b))
  | .ge => some (onOrder op left right fun a b => decide (b ≤ a))
  | .and => some (onBools op left right and)
  | .or => some (onBools op left right or)

theorem applyBinary_eq_lift {op : BinaryOp} {left right : Value} {result : Except FaultCause Value}
    (h : strictBinary op left right = some result) (ev : Evaluator) (fuel : Nat) :
    applyBinary ev fuel op left right = Eval.lift result := by
  cases op <;> simp only [strictBinary, Option.some.injEq, reduceCtorEq] at h <;> subst h <;> rfl

/-- A primitive that looks at the outermost layer of its argument only; `none` for one that takes a
list cell apart. -/
def Prim.inspect (p : Prim) (arg : Value) : Option (Except FaultCause Value) :=
  match p, arg with
  | .first, .cons .. | .rest, .cons .. => none
  | .isNumber, .int _ => some (.ok (.bool true))
  | .isNumber, _ => some (.ok (.bool false))
  | .isFunction, v => some (.ok (.bool v.isFunction))
  | .isList, v => some (.ok (.bool v.isList))
  | .isCons, .cons .. => some (.ok (.bool true))
  | .isCons, _ => some (.ok (.bool false))
  | .isNull, .nil => some (.ok (.bool true))
  | .isNull, _ => some (.ok (.bool false))
  | .arity, .closure _ lambda _ => some (.ok (.int lambda.arity))
  | .arity, .prim callee => some (.ok (.int callee.argCount))
  | .arity, v => some (.error (.typeMismatch .arity v.describe))
  | .first, v | .rest, v => some (.error (.notACell p v.describe))
  | .cons, _ => some (.error (.primArity p 1))

theorem applyPrim_eq_lift {p : Prim} {arg : Value} {result : Except FaultCause Value}
    (h : p.inspect arg = some result) (ev : Evaluator) :
    applyPrim ev p arg = Eval.lift result := by
  cases p <;> cases arg <;> simp only [Prim.inspect, Option.some.injEq, reduceCtorEq] at h <;>
    subst h <;> rfl

theorem Prim.inspect_eq_none {p : Prim} {arg : Value} (h : p.inspect arg = none) :
    ∃ tag head tail, arg = .cons tag head tail ∧ (p = .first ∨ p = .rest) := by
  cases p <;> cases arg <;> simp_all [Prim.inspect]

/-! ## Operators see no more of a value than its description -/

section

variable {v w v' w' : Value}

theorem Value.isList_congr (h : v.describe = w.describe) : v.isList = w.isList := by
  cases v <;> cases w <;> simp_all [Value.describe, Value.isList]

theorem intOperand_congr (h : v.describe = w.describe) (operation : Operation) :
    intOperand operation v = intOperand operation w := by
  cases v <;> cases w <;> simp_all [Value.describe, intOperand]

theorem boolOperand_congr (h : v.describe = w.describe) (operation : Operation) :
    boolOperand operation v = boolOperand operation w := by
  cases v <;> cases w <;> simp_all [Value.describe, boolOperand]

theorem applyUnary_congr (h : v.describe = w.describe) (op : UnaryOp) :
    applyUnary op v = applyUnary op w := by
  cases op <;> simp only [applyUnary, intOperand_congr h, boolOperand_congr h]

theorem strictBinary_congr (h : v.describe = w.describe) (h' : v'.describe = w'.describe)
    (op : BinaryOp) : strictBinary op v v' = strictBinary op w w' := by
  cases op <;> simp only [strictBinary, onOrder, onInts, onBools, intOperand_congr h,
    intOperand_congr h', boolOperand_congr h, boolOperand_congr h']

theorem Prim.inspect_congr (h : v.describe = w.describe) (p : Prim) :
    p.inspect v = p.inspect w := by
  cases v <;> cases w <;> simp_all only [Value.describe, reduceCtorEq, Description.integer.injEq,
    Description.boolean.injEq, Description.primitive.injEq, Description.closure.injEq]
  case closure => cases p <;> simp_all [inspect, Value.describe, Value.isFunction, Value.isList]
  case cons => cases p <;> rfl

end

/-! ## Results are scalars, failures are about operands -/

/-- The operation yields scalars, and none of its failures is about a variable. -/
def IsPlain (result : Except FaultCause Value) : Prop :=
  match result with
  | .ok v => v.IsScalar
  | .error cause => cause.isUnbound = false

theorem intOperand_error {operation : Operation} {v : Value} {cause : FaultCause}
    (h : intOperand operation v = .error cause) : cause.isUnbound = false := by
  cases v <;> simp only [intOperand, Except.error.injEq, reduceCtorEq] at h <;> subst h <;> rfl

theorem boolOperand_error {operation : Operation} {v : Value} {cause : FaultCause}
    (h : boolOperand operation v = .error cause) : cause.isUnbound = false := by
  cases v <;> simp only [boolOperand, Except.error.injEq, reduceCtorEq] at h <;> subst h <;> rfl

theorem checkedInt_plain (operation : Operation) (n : Int) :
    IsPlain (checkedInt operation n) := by
  unfold checkedInt
  split
  · trivial
  · rfl

theorem divide_plain (a b : Int) : IsPlain (divide a b) := by
  unfold divide
  split
  · rfl
  · exact checkedInt_plain _ _

theorem onInts_plain (op : BinaryOp) (left right : Value)
    {apply : Int → Int → Except FaultCause Value} (h : ∀ a b, IsPlain (apply a b)) :
    IsPlain (onInts op left right apply) := by
  unfold onInts
  cases hleft : intOperand (.binary op) left with
  | error cause => exact intOperand_error hleft
  | ok a =>
      cases hright : intOperand (.binary op) right with
      | error cause => exact intOperand_error hright
      | ok b => exact h a b

theorem onOrder_plain (op : BinaryOp) (left right : Value) (holds : Int → Int → Bool) :
    IsPlain (onOrder op left right holds) :=
  onInts_plain op left right fun _ _ => trivial

theorem onBools_plain (op : BinaryOp) (left right : Value) (apply : Bool → Bool → Bool) :
    IsPlain (onBools op left right apply) := by
  unfold onBools
  cases hleft : boolOperand (.binary op) left with
  | error cause => exact boolOperand_error hleft
  | ok a =>
      cases hright : boolOperand (.binary op) right with
      | error cause => exact boolOperand_error hright
      | ok b => exact trivial

theorem applyUnary_plain (op : UnaryOp) (v : Value) : IsPlain (applyUnary op v) := by
  cases op with
  | pos =>
      unfold applyUnary
      cases h : intOperand (.unary .pos) v with
      | error cause => exact intOperand_error h
      | ok n => exact trivial
  | neg =>
      unfold applyUnary
      cases h : intOperand (.unary .neg) v with
      | error cause => exact intOperand_error h
      | ok n => exact checkedInt_plain _ _
  | not =>
      unfold applyUnary
      cases h : boolOperand (.unary .not) v with
      | error cause => exact boolOperand_error h
      | ok b => exact trivial

theorem strictBinary_plain {op : BinaryOp} {left right : Value}
    {result : Except FaultCause Value} (h : strictBinary op left right = some result) :
    IsPlain result := by
  cases op <;> simp only [strictBinary, Option.some.injEq, reduceCtorEq] at h <;> subst h
  case div => exact onInts_plain _ _ _ divide_plain
  case add | sub | mul => exact onInts_plain _ _ _ fun _ _ => checkedInt_plain _ _
  case and | or => exact onBools_plain _ _ _ _
  all_goals exact onOrder_plain _ _ _ _

theorem Prim.inspect_plain {p : Prim} {arg : Value} {result : Except FaultCause Value}
    (h : p.inspect arg = some result) : IsPlain result := by
  cases p <;> cases arg <;> simp only [Prim.inspect, Option.some.injEq, reduceCtorEq] at h <;>
    subst h <;> simp [IsPlain, Value.IsScalar, FaultCause.isUnbound]

end PolicyEval
