/-!
# Error codes

Every failure that a program can cause has a stable code of the form `E` and four digits.  The
first digit names the phase that found the failure.

* `ErrorCode.text` — the code as it is written.
* `ErrorCode.ofText?` — reads a code back, in upper or lower case.
* `ErrorCode.description` — the title of a failure when nothing more precise is known.
-/

namespace PolicyEval

/-- The phases of the toolchain, in the order in which a program passes through them. -/
inductive Phase where
  | lex | parse | check | eval
deriving DecidableEq, Inhabited

/-- The name of a phase. -/
def Phase.name : Phase → String
  | .lex => "lex"
  | .parse => "parse"
  | .check => "check"
  | .eval => "eval"

/-- The kinds of failure that have a code of their own. -/
inductive ErrorCode where
  | unexpectedChar | integerOutOfRange
  | unexpectedToken | unexpectedEnd | trailingInput
  | freeVariable | duplicateBinding
  | unboundVariable | notAFunction | arityMismatch | typeMismatch
  | divisionByZero | listShape | integerOverflow | recursionLimit
deriving DecidableEq, Inhabited

namespace ErrorCode

/-- All codes in the order of their numbers. -/
def all : List ErrorCode :=
  [unexpectedChar, integerOutOfRange,
   unexpectedToken, unexpectedEnd, trailingInput,
   freeVariable, duplicateBinding,
   unboundVariable, notAFunction, arityMismatch, typeMismatch,
   divisionByZero, listShape, integerOverflow, recursionLimit]

/-- The written code. -/
def text : ErrorCode → String
  | unexpectedChar => "E0001"
  | integerOutOfRange => "E0002"
  | unexpectedToken => "E1001"
  | unexpectedEnd => "E1002"
  | trailingInput => "E1003"
  | freeVariable => "E2001"
  | duplicateBinding => "E2002"
  | unboundVariable => "E3001"
  | notAFunction => "E3002"
  | arityMismatch => "E3003"
  | typeMismatch => "E3004"
  | divisionByZero => "E3005"
  | listShape => "E3006"
  | integerOverflow => "E3007"
  | recursionLimit => "E3008"

/-- One line on what the code means. -/
def description : ErrorCode → String
  | unexpectedChar => "unexpected character"
  | integerOutOfRange => "integer literal out of range"
  | unexpectedToken => "unexpected token"
  | unexpectedEnd => "unexpected end of input"
  | trailingInput => "unexpected input after expression"
  | freeVariable => "free variable"
  | duplicateBinding => "duplicate binding"
  | unboundVariable => "unbound variable"
  | notAFunction => "not a function"
  | arityMismatch => "arity mismatch"
  | typeMismatch => "type mismatch"
  | divisionByZero => "division by zero"
  | listShape => "list shape violation"
  | integerOverflow => "integer overflow"
  | recursionLimit => "recursion limit exceeded"

/-- The phase that raises the code. -/
def phase : ErrorCode → Phase
  | unexpectedChar | integerOutOfRange => .lex
  | unexpectedToken | unexpectedEnd | trailingInput => .parse
  | freeVariable | duplicateBinding => .check
  | unboundVariable | notAFunction | arityMismatch | typeMismatch
  | divisionByZero | listShape | integerOverflow | recursionLimit => .eval

/-- The position of a code among all codes. -/
def position (c : ErrorCode) : Nat := all.idxOf c

/-- Reads a written code.  Letters may be of either case; codes hold no letter beyond ASCII, so
the case of other letters does not matter. -/
def ofText? (s : String) : Option ErrorCode :=
  all.find? fun c => c.text == s.map Char.toUpper

end ErrorCode

end PolicyEval
