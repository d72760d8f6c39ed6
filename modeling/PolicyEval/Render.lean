import PolicyEval.Eval
import PolicyEval.Expr.Printer

/-!
# Rendering values

A value is rendered as text: lists in parentheses with blanks between their elements, closures with
their source.  Delayed parts are forced on the way, each head before its own tail.

The print depth bounds both how many elements of a list are shown and how deep lists are nested: a
list nested too deep is shown as `...`, and a list with more elements ends in ` ...`.  So an
infinite list has a finite text.

* `renderIn` — the text of a value with the given room for nested lists.
* `renderValue` — the text of a value under a print depth.
-/

namespace PolicyEval

/-- Puts the elements of a list behind the text `out`, at most `left` more of them, and closes the
list.  Elements are rendered by `item`, and each but the first has a blank before it. -/
def renderSpine (ev : Evaluator) (item : Value → Eval String) (isFirst : Bool) (out : String) :
    Nat → Value → Eval String
  | 0, .cons .. => return out ++ " ...)"
  | left + 1, .cons _ head tail => do
    let element ← item (← force ev head)
    let rest ← forceTail ev tail
    renderSpine ev item false ((if isFirst then out else out ++ " ") ++ element) left rest
  | _, _ => return out ++ ")"

/-- The text of a value in a context with room for `room` nested lists. -/
def renderIn (ev : Evaluator) (printDepth : Nat) : Nat → Value → Eval String
  | _, .int n => return toString n
  | _, .bool true => return "true"
  | _, .bool false => return "false"
  | _, .prim p => return p.name
  | _, .closure _ lambda _ => return "(closure: " ++ lambda.expr.print ++ ")"
  | 0, _ => return "..."
  | room + 1, v => renderSpine ev (renderIn ev printDepth room) true "(" printDepth v

/-- The text of a value under a print depth. -/
def renderValue (ev : Evaluator) (printDepth : Nat) (v : Value) : Eval String :=
  renderIn ev printDepth printDepth v

end PolicyEval
