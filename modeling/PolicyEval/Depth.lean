/-!
# Depth counters

A depth counter knows how deep an evaluation is nested now and how deep it ever was.  Entering a
level fails if the nesting has reached its limit, and then changes nothing.

* `Depth.enter` — one level deeper, or the limit that forbids it.
* `Depth.leave` — one level back; leaving the outermost level changes nothing.
-/

namespace PolicyEval

/-- The present nesting and the deepest one so far. -/
structure Depth where
  current : Nat
  deepest : Nat
deriving DecidableEq, Inhabited

namespace Depth

/-- The counter before anything was entered. -/
def zero : Depth := ⟨0, 0⟩

/-- The counter one level deeper. -/
def deeper (d : Depth) : Depth := ⟨d.current + 1, max d.deepest (d.current + 1)⟩

/-- Enters a level unless the limit is reached; the error is that limit. -/
def enter (limit : Option Nat) (d : Depth) : Except Nat Depth :=
  match limit with
  | some n => if n ≤ d.current then .error n else .ok d.deeper
  | none => .ok d.deeper

/-- Leaves a level. -/
def leave (d : Depth) : Depth := { d with current := d.current - 1 }

/-- The message for a nesting that goes beyond its limit. -/
def exceededMessage (limit : Nat) : String := s!"maximum recursion depth of {limit} exceeded"

/-- Leaving undoes entering, except that the deepest level stays. -/
theorem leave_deeper_current (d : Depth) : d.deeper.leave.current = d.current := by
  simp [deeper, leave]

/-- Entering fails exactly when the limit is reached. -/
theorem enter_eq_error_iff (limit : Option Nat) (d : Depth) (n : Nat) :
    d.enter limit = .error n ↔ limit = some n ∧ n ≤ d.current := by
  cases limit with
  | none => simp [enter]
  | some m =>
    by_cases h : m ≤ d.current
    · simp only [enter, h, if_true, Except.error.injEq, Option.some.injEq]
      constructor
      · rintro rfl
        exact ⟨rfl, h⟩
      · exact And.left
    · simp only [enter, h, if_false, reduceCtorEq, Option.some.injEq, false_iff, not_and]
      rintro rfl
      exact h

end Depth

end PolicyEval
