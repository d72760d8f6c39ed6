import PolicyEval.Token
import PolicyEval.Token.LexError

/-!
# Sources without an expression

Reading an expression fails at the first token that cannot go on, at the end of the tokens if they
stop too early, or at the first token behind a complete expression.

* `Expected` — what was looked for.
* `ParseError` — a failure to read an expression from tokens.
* `SyntaxError` — a failure to read an expression from a source.
-/

namespace PolicyEval

/-- What a reader was looking for. -/
inductive Expected where
  | expression
  | closeParen
  | commaOrClose
  | thenWord
  | elseWord
  | definitionName
  | defineSign
  | semicolon
  | inOrDefinition
  | parameterName
  | toWord
deriving DecidableEq

/-- The phrase for what was looked for. -/
def Expected.text : Expected → String
  | expression => "an expression"
  | closeParen => "`)`"
  | commaOrClose => "`,` or `)`"
  | thenWord => "`then`"
  | elseWord => "`else`"
  | definitionName => "a definition name"
  | defineSign => "`:=`"
  | semicolon => "`;`"
  | inOrDefinition => "`in` or another definition"
  | parameterName => "a parameter name"
  | toWord => "`to`"

/-- Why tokens do not spell an expression. -/
inductive ParseCause where
  /-- A token stands where another one was expected. -/
  | unexpectedToken (expected : Expected) (found : Sign)
  /-- The tokens end where one was expected. -/
  | unexpectedEnd (expected : Expected)
  /-- A token follows a complete expression. -/
  | trailingInput (found : Sign)
deriving DecidableEq

/-- A failure to read an expression, with its place. -/
structure ParseError where
  cause : ParseCause
  span : Span
deriving DecidableEq

namespace ParseError

/-- The failure to find something at the start of the tokens `ts`, which end at `stop`. -/
def unexpected (stop : Span) (expected : Expected) (ts : List Token) : ParseError :=
  match ts with
  | [] => ⟨.unexpectedEnd expected, stop⟩
  | t :: _ => ⟨.unexpectedToken expected t.sign, t.span⟩

/-- The code of the failure. -/
def code (e : ParseError) : ErrorCode :=
  match e.cause with
  | .unexpectedToken .. => .unexpectedToken
  | .unexpectedEnd _ => .unexpectedEnd
  | .trailingInput _ => .trailingInput

/-- The message of the failure. -/
def message (e : ParseError) : String :=
  match e.cause with
  | .unexpectedToken expected found => s!"expected {expected.text}, found {found.describe}"
  | .unexpectedEnd expected => s!"expected {expected.text}, found end of input"
  | .trailingInput found => s!"unexpected {found.describe} after the end of the expression"

/-- The report on the failure. -/
def diagnostic (e : ParseError) : Diagnostic :=
  let base := Diagnostic.new e.code e.message
  match e.cause with
  | .unexpectedToken expected _ | .unexpectedEnd expected =>
    base.withPrimary e.span s!"expected {expected.text}"
  | .trailingInput _ =>
    (base.withPrimary e.span "the program already ended before this").withNote
      "a Jam program is a single expression"

end ParseError

/-- Why a source does not spell an expression. -/
inductive SyntaxError where
  | lex (e : LexError)
  | parse (e : ParseError)
deriving DecidableEq

namespace SyntaxError

/-- The code of the failure. -/
def code : SyntaxError → ErrorCode
  | lex e => e.code
  | parse e => e.code

/-- The message of the failure. -/
def message : SyntaxError → String
  | lex e => e.message
  | parse e => e.message

/-- The place of the failure. -/
def span : SyntaxError → Span
  | lex e => e.span
  | parse e => e.span

/-- The report on the failure. -/
def diagnostic : SyntaxError → Diagnostic
  | lex e => e.diagnostic
  | parse e => e.diagnostic

end SyntaxError

end PolicyEval
