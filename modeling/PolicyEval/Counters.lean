/-!
# Evaluation counters

What an evaluation did: how many expressions it evaluated, how many closures and primitives it
called, how many delayed expressions it forced, how many list cells it built, and how deep it was
nested.  The five counts are 64-bit words and start again at zero when they overflow.

* `Counters.merge` — the totals of two evaluations: counts add up, the deeper nesting wins.
* `Counters.report` — the profile printed to the user.
-/

namespace PolicyEval

/-- The counts of one or more evaluations. -/
structure Counters where
  expressions : UInt64
  calls : UInt64
  prims : UInt64
  forced : UInt64
  cons : UInt64
  maxDepth : Nat
deriving DecidableEq, Inhabited

namespace Counters

/-- The counters before anything happened. -/
def zero : Counters := ⟨0, 0, 0, 0, 0, 0⟩

/-- One more expression evaluated. -/
def countExpression (c : Counters) : Counters := { c with expressions := c.expressions + 1 }

/-- One more closure called. -/
def countCall (c : Counters) : Counters := { c with calls := c.calls + 1 }

/-- One more primitive called. -/
def countPrim (c : Counters) : Counters := { c with prims := c.prims + 1 }

/-- One more delayed expression forced. -/
def countForced (c : Counters) : Counters := { c with forced := c.forced + 1 }

/-- One more list cell built. -/
def countCons (c : Counters) : Counters := { c with cons := c.cons + 1 }

/-- The totals of two evaluations. -/
def merge (a b : Counters) : Counters :=
  ⟨a.expressions + b.expressions, a.calls + b.calls, a.prims + b.prims, a.forced + b.forced,
    a.cons + b.cons, max a.maxDepth b.maxDepth⟩

/-- The lines of the profile. -/
def reportLines (c : Counters) : List String :=
  ["Evaluation profile:",
   s!"  Expressions evaluated: {c.expressions.toNat}",
   s!"  Closure calls:         {c.calls.toNat}",
   s!"  Primitive calls:       {c.prims.toNat}",
   s!"  Suspensions forced:    {c.forced.toNat}",
   s!"  Cons cells built:      {c.cons.toNat}",
   s!"  Max depth:             {c.maxDepth}"]

/-- The profile, without a newline at its end. -/
def report (c : Counters) : String := String.intercalate "\n" c.reportLines

theorem merge_comm (a b : Counters) : a.merge b = b.merge a := by
  simp [merge, UInt64.add_comm, Nat.max_comm]

theorem merge_assoc (a b c : Counters) : (a.merge b).merge c = a.merge (b.merge c) := by
  simp [merge, UInt64.add_assoc, Nat.max_assoc]

end Counters

end PolicyEval
