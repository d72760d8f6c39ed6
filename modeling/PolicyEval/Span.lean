/-!
# Spans — half-open byte ranges of a source text

A span says which bytes of the source a token, an expression or an error is about.  Offsets are
held to 32 bits: an offset that does not fit is replaced by the largest one that does, so a span
of an oversized source is imprecise but never wraps around.

* `Span.saturate` — the span of two offsets of any size.
* `Span.merge` — the smallest span that covers two spans.
-/

namespace PolicyEval

/-- A half-open range of byte offsets, from `start` up to but not including `stop`. -/
structure Span where
  start : Nat
  stop : Nat
deriving DecidableEq, Inhabited

namespace Span

/-- The largest offset that a span can hold, the largest number of 32 bits. -/
def maxOffset : Nat := 4294967295

/-- The span between two offsets, each replaced by the largest offset if it does not fit. -/
def saturate (start stop : Nat) : Span :=
  ⟨min start maxOffset, min stop maxOffset⟩

/-- The smallest span that covers both spans. -/
def merge (a b : Span) : Span :=
  ⟨min a.start b.start, max a.stop b.stop⟩

/-- The number of bytes covered; a span that ends before it starts covers none. -/
def length (s : Span) : Nat := s.stop - s.start

/-- Whether the span covers no byte. -/
def isEmpty (s : Span) : Bool := decide (s.stop ≤ s.start)

/-- The written form of a span, `start..stop`. -/
def text (s : Span) : String := s!"{s.start}..{s.stop}"

/-! ## Laws of `merge` -/

theorem merge_comm (a b : Span) : a.merge b = b.merge a := by
  simp [merge, Nat.min_comm, Nat.max_comm]

theorem merge_assoc (a b c : Span) : (a.merge b).merge c = a.merge (b.merge c) := by
  simp [merge, Nat.min_assoc, Nat.max_assoc]

theorem merge_self (a : Span) : a.merge a = a := by
  simp [merge]

/-- A span is empty exactly when it covers no byte. -/
theorem isEmpty_iff_length_eq_zero (s : Span) : s.isEmpty = true ↔ s.length = 0 := by
  simp [isEmpty, length, Nat.sub_eq_zero_iff_le]

end Span

end PolicyEval
