import PolicyEval.Diagnostic

/-!
# Sources without a token list

Reading tokens fails at a character with which no token starts, and at an integer literal that is
larger than the largest integer.  Both are reported at the offending text.
-/

namespace PolicyEval

/-- Why a source has no token list. -/
inductive LexCause where
  /-- No token starts with the character. -/
  | unexpectedChar (c : Char)
  /-- The literal is larger than the largest integer. -/
  | integerOutOfRange (literal : String)
deriving DecidableEq

/-- A failure to read tokens, with its place. -/
structure LexError where
  cause : LexCause
  span : Span
deriving DecidableEq

/-- The largest integer of the language, the largest signed number of 64 bits. -/
def maxInteger : Nat := 9223372036854775807

namespace LexError

/-- The code of the failure. -/
def code (e : LexError) : ErrorCode :=
  match e.cause with
  | .unexpectedChar _ => .unexpectedChar
  | .integerOutOfRange _ => .integerOutOfRange

/-- The message of the failure. -/
def message (e : LexError) : String :=
  match e.cause with
  | .unexpectedChar c => s!"unexpected character `{c}`"
  | .integerOutOfRange literal => s!"integer literal `{literal}` does not fit in 64 bits"

/-- The report on the failure.  The first characters of `!=` and `:=` are not tokens of their own,
and the report on them says so. -/
def diagnostic (e : LexError) : Diagnostic :=
  let base := Diagnostic.new e.code e.message
  match e.cause with
  | .unexpectedChar '!' =>
    (base.withPrimary e.span "not a token on its own").withNote "did you mean `!=`?"
  | .unexpectedChar ':' =>
    (base.withPrimary e.span "not a token on its own").withNote "did you mean `:=`?"
  | .unexpectedChar _ => base.withPrimary e.span "not valid here"
  | .integerOutOfRange _ =>
    (base.withPrimary e.span "literal too large").withNote
      s!"the largest integer literal is {maxInteger}"

end LexError

end PolicyEval
