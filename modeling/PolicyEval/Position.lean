import PolicyEval.Span

/-!
# Positions — lines and columns of a source

Spans count bytes, readers count lines and columns.  A line ends after a line feed, a carriage
return, a vertical tab, a form feed or one of the three Unicode line ends; a carriage return followed
by a line feed is one end.  The end of the source belongs to its last line even if that line is
closed by a line end.

* `Position.charsBefore` — the number of characters before a byte offset.
* `Position.charRange` — the range of characters that a span covers.
* `Position.ofOffset` — the line and the column of a byte offset.
-/

namespace PolicyEval

/-- A line and a column, both counted from 1. -/
structure Position where
  line : Nat
  column : Nat
deriving DecidableEq

namespace Position

/-- The characters that end a line. -/
def isLineEnd (c : Char) : Bool :=
  c == '\n' || c == '\r' || c == '\x0b' || c == '\x0c' ||
  c == '\u0085' || c == '\u2028' || c == '\u2029'

/-- Whether the character `c`, followed by `rest`, is the last one of its line.  A carriage return
and a line feed after it are one line end, and a line end at the end of the text starts no line. -/
def breaksAfter (c : Char) (rest : List Char) : Bool :=
  match rest with
  | [] => false
  | next :: _ => isLineEnd c && !(c == '\r' && next == '\n')

/-- The number of characters whose first byte lies before the given byte offset. -/
def charsBefore : List Char → Nat → Nat
  | [], _ => 0
  | c :: rest, offset =>
    if offset = 0 then 0 else charsBefore rest (offset - c.utf8Size) + 1

/-- The characters that a span of a source covers, as a half-open range of numbers of characters.  A
span that ends before it starts covers none. -/
def charRange (source : String) (span : Span) : Nat × Nat :=
  let chars := source.toList
  let start := charsBefore chars span.start
  (start, max (charsBefore chars span.stop) start)

/-- The position reached from `p` by walking over the first `count` characters of a text. -/
def advance (p : Position) : List Char → Nat → Position
  | _, 0 => p
  | [], _ => p
  | c :: rest, count + 1 =>
    if breaksAfter c rest then advance ⟨p.line + 1, 1⟩ rest count
    else advance ⟨p.line, p.column + 1⟩ rest count

/-- The position of a byte offset of a source text. -/
def ofOffset (source : String) (offset : Nat) : Position :=
  let chars := source.toList
  advance ⟨1, 1⟩ chars (charsBefore chars offset)

end Position

end PolicyEval
