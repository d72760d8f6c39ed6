import PolicyEval.Decimal
import PolicyEval.Token
import PolicyEval.Token.LexError

/-!
# Reading tokens

A source text is cut into pieces from left to right.  Each piece is the longest one that starts at
its place: a gap (blanks, or a comment up to the end of its line), a number, a word, a sign, or a
single character with which nothing starts.  Gaps are dropped; the last kind is an error.

* `cut` — the piece at the start of a text, and what follows it.
* `cut_text_append_rest` — cutting loses nothing.
* `TokenList.ofSource` — all tokens of a source, or the first error.
-/

namespace PolicyEval

/-! ## Character classes -/

/-- The characters that may stand between tokens. -/
def isBlank (c : Char) : Bool :=
  c == ' ' || c == '\t' || c == '\r' || c == '\n' || c == '\x0c'

/-- The characters with which a word starts. -/
def isWordStart (c : Char) : Bool := c.isAlpha || c == '_' || c == '?'

/-- The characters of which a word consists. -/
def isWordPart (c : Char) : Bool := isWordStart c || c.isDigit

/-- The characters of a comment, which ends before the next line. -/
def isCommentPart (c : Char) : Bool := c != '\n'

/-! ## Pieces of a source -/

/-- What a piece of a source is. -/
inductive Shape where
  | gap
  | number
  | word
  | sign (s : Sign)
  | invalid
deriving DecidableEq

/-- A piece of a source and what follows it. -/
structure Piece where
  shape : Shape
  text : List Char
  rest : List Char

/-- The longest run of characters of a class at the start of `cs`, put behind `before`. -/
def runOf (shape : Shape) (before : List Char) (part : Char → Bool) (cs : List Char) : Piece :=
  ⟨shape, before ++ cs.takeWhile part, cs.dropWhile part⟩

/-- The sign that starts with the character `c`, followed by `cs`, two characters wide if it can
be. -/
def cutSign (c : Char) (cs : List Char) : Piece :=
  match c, cs with
  | '!', '=' :: rest => ⟨.sign (.operator .ne), [c, '='], rest⟩
  | '<', '=' :: rest => ⟨.sign (.operator .le), [c, '='], rest⟩
  | '>', '=' :: rest => ⟨.sign (.operator .ge), [c, '='], rest⟩
  | ':', '=' :: rest => ⟨.sign .define, [c, '='], rest⟩
  | '+', rest => ⟨.sign (.operator .add), [c], rest⟩
  | '-', rest => ⟨.sign (.operator .sub), [c], rest⟩
  | '*', rest => ⟨.sign (.operator .mul), [c], rest⟩
  | '/', rest => ⟨.sign (.operator .div), [c], rest⟩
  | '=', rest => ⟨.sign (.operator .eq), [c], rest⟩
  | '<', rest => ⟨.sign (.operator .lt), [c], rest⟩
  | '>', rest => ⟨.sign (.operator .gt), [c], rest⟩
  | '&', rest => ⟨.sign (.operator .and), [c], rest⟩
  | '|', rest => ⟨.sign (.operator .or), [c], rest⟩
  | '~', rest => ⟨.sign .tilde, [c], rest⟩
  | '(', rest => ⟨.sign .openParen, [c], rest⟩
  | ')', rest => ⟨.sign .closeParen, [c], rest⟩
  | ',', rest => ⟨.sign .comma, [c], rest⟩
  | ';', rest => ⟨.sign .semicolon, [c], rest⟩
  | _, rest => ⟨.invalid, [c], rest⟩

/-- The piece at the start of a text that begins with `c` and goes on with `cs`. -/
def cut (c : Char) (cs : List Char) : Piece :=
  if isBlank c then runOf .gap [c] isBlank cs
  else if c.isDigit then runOf .number [c] Char.isDigit cs
  else if isWordStart c then runOf .word [c] isWordPart cs
  else
    match c, cs with
    | '/', '/' :: rest => runOf .gap ['/', '/'] isCommentPart rest
    | c, cs => cutSign c cs

theorem runOf_text_append_rest (shape : Shape) (before : List Char) (part : Char → Bool)
    (cs : List Char) :
    (runOf shape before part cs).text ++ (runOf shape before part cs).rest = before ++ cs := by
  simp [runOf, List.takeWhile_append_dropWhile]

theorem cutSign_text_append_rest (c : Char) (cs : List Char) :
    (cutSign c cs).text ++ (cutSign c cs).rest = c :: cs := by
  unfold cutSign
  split <;> simp

/-- Cutting loses nothing: a piece and what follows it are the text. -/
theorem cut_text_append_rest (c : Char) (cs : List Char) :
    (cut c cs).text ++ (cut c cs).rest = c :: cs := by
  unfold cut
  split
  · exact runOf_text_append_rest _ _ _ _
  · split
    · exact runOf_text_append_rest _ _ _ _
    · split
      · exact runOf_text_append_rest _ _ _ _
      · split
        · exact runOf_text_append_rest _ _ _ _
        · exact cutSign_text_append_rest _ _

theorem cutSign_text_ne_nil (c : Char) (cs : List Char) : (cutSign c cs).text ≠ [] := by
  unfold cutSign
  split <;> simp

theorem cut_text_ne_nil (c : Char) (cs : List Char) : (cut c cs).text ≠ [] := by
  unfold cut
  split
  · simp [runOf]
  · split
    · simp [runOf]
    · split
      · simp [runOf]
      · split
        · simp [runOf]
        · exact cutSign_text_ne_nil _ _

/-- Cutting makes progress: what follows a piece is shorter than the text. -/
theorem cut_rest_length_lt (c : Char) (cs : List Char) :
    (cut c cs).rest.length < (c :: cs).length := by
  have whole := congrArg List.length (cut_text_append_rest c cs)
  have positive := List.length_pos_iff.mpr (cut_text_ne_nil c cs)
  rw [List.length_append] at whole
  omega

/-! ## Token lists -/

/-- The number of bytes of a text. -/
def byteLength : List Char → Nat
  | [] => 0
  | c :: cs => c.utf8Size + byteLength cs

/-- Reads the tokens of `cs`, which starts at byte `offset`, behind the tokens `done`, which are
kept last first. -/
def scan (offset : Nat) (names : Interner) (done : List Token) (cs : List Char) :
    Except LexError TokenList :=
  match cs with
  | [] => .ok ⟨done.reverse, Span.saturate offset offset, names⟩
  | c :: cs =>
    let piece := cut c cs
    let stop := offset + byteLength piece.text
    let span := Span.saturate offset stop
    let text := String.ofList piece.text
    match piece.shape with
    | .gap => scan stop names done piece.rest
    | .number =>
      let value := decimalValue piece.text
      if value ≤ maxInteger then
        scan stop names (⟨.int value, text, span⟩ :: done) piece.rest
      else .error ⟨.integerOutOfRange text, span⟩
    | .word =>
      match Sign.ofWord? text with
      | some sign => scan stop names (⟨sign, text, span⟩ :: done) piece.rest
      | none =>
        let (name, names) := names.intern text
        scan stop names (⟨.ident name, text, span⟩ :: done) piece.rest
    | .sign sign => scan stop names (⟨sign, text, span⟩ :: done) piece.rest
    | .invalid => .error ⟨.unexpectedChar c, span⟩
termination_by cs.length
decreasing_by all_goals exact cut_rest_length_lt _ _

namespace TokenList

/-- The tokens of a source whose identifiers join the names met before. -/
def ofSourceWith (names : Interner) (source : String) : Except LexError TokenList :=
  scan 0 names [] source.toList

/-- The tokens of a source. -/
def ofSource (source : String) : Except LexError TokenList :=
  ofSourceWith Interner.empty source

end TokenList

end PolicyEval
