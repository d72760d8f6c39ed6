import PolicyEval.ErrorCode

/-!
# Long explanations of the error codes

For each code a short text in Markdown: what the failure is, a program that shows it, and what to
do about it.  `ErrorCode.explanation` gives the text, every line ended by a newline.
-/

namespace PolicyEval

namespace ErrorCode

/-- The lines of a code's explanation. -/
def explanationLines : ErrorCode → List String
  | unexpectedChar =>
    ["# E0001: Unexpected Character",
     "",
     "The lexer found a character that does not begin any Jam token.",
     "",
     "```jam",
     "let x := 1 # 2; in x",
     "//         ^ `#` is not a Jam token",
     "```",
     "",
     "Jam has no `!` or `:` on their own; they only appear in `!=` and `:=`.",
     "",
     "## Solution",
     "",
     "Remove the character, or write the operator you meant (`!=`, `:=`)."]
  | integerOutOfRange =>
    ["# E0002: Integer Literal Out of Range",
     "",
     "Integer literals must fit in a signed 64-bit integer.",
     "",
     "```jam",
     "99999999999999999999",
     "```",
     "",
     "## Solution",
     "",
     "Use a smaller literal, or build the value arithmetically."]
  | unexpectedToken =>
    ["# E1001: Unexpected Token",
     "",
     "The parser found a token where a different one was required.",
     "",
     "```jam",
     "map x to y := 2",
     "//         ^^ `:=` only appears inside `let`",
     "```",
     "",
     "## Solution",
     "",
     "Check the grammar of the surrounding form:",
     "",
     "- `if e then e else e`",
     "- `let x := e; ... in e`",
     "- `map x, y to e`"]
  | unexpectedEnd =>
    ["# E1002: Unexpected End of Input",
     "",
     "The program ended in the middle of an expression.",
     "",
     "```jam",
     "1 +",
     "```",
     "",
     "## Solution",
     "",
     "Finish the expression, or close the open parenthesis."]
  | trailingInput =>
    ["# E1003: Unexpected Input After Expression",
     "",
     "A Jam program is exactly one expression. Something followed it.",
     "",
     "```jam",
     "1 + 2 3",
     "//    ^ extra input",
     "```",
     "",
     "## Solution",
     "",
     "Combine the pieces into one expression, for example with `let`."]
  | freeVariable =>
    ["# E2001: Free Variable",
     "",
     "A variable is used that no enclosing `map` parameter list or `let`",
     "definition binds. The context check rejects the whole program before it",
     "runs, even if the offending branch would never be evaluated.",
     "",
     "```jam",
     "if true then 1 else y",
     "//                  ^ `y` is not bound",
     "```",
     "",
     "`let` definitions are simultaneous: a right-hand side cannot see the",
     "names defined by its own `let`.",
     "",
     "```jam",
     "let zeroes := cons(0, zeroes); in zeroes",
     "//                    ^^^^^^ not bound yet",
     "```",
     "",
     "## Solution",
     "",
     "Bind the variable, or express recursion through self-application:",
     "",
     "```jam",
     "let mk := map self to cons(0, self(self));",
     "in first(rest(mk(mk)))",
     "```"]
  | duplicateBinding =>
    ["# E2002: Duplicate Binding",
     "",
     "The same name appears twice in one parameter list or one `let`.",
     "",
     "```jam",
     "map x, x to 1",
     "let x := 1; x := 2; in x",
     "```",
     "",
     "## Solution",
     "",
     "Rename one of the bindings. Shadowing in a nested `map` or `let` is fine."]
  | unboundVariable =>
    ["# E3001: Unbound Variable",
     "",
     "Evaluation looked up a variable that is not in the environment. Programs",
     "that pass the context check never raise this; it appears only when an",
     "unchecked tree is evaluated directly."]
  | notAFunction =>
    ["# E3002: Not a Function",
     "",
     "The operator of an application did not evaluate to a closure or primitive.",
     "",
     "```jam",
     "let f := 5; in f(1)",
     "```"]
  | arityMismatch =>
    ["# E3003: Arity Mismatch",
     "",
     "A closure or primitive was applied to the wrong number of arguments.",
     "",
     "```jam",
     "(map x, y to x + y)(1)",
     "first(null, null)",
     "```",
     "",
     "`arity(f)` reports how many arguments `f` expects."]
  | typeMismatch =>
    ["# E3004: Type Mismatch",
     "",
     "An operator or primitive received a value of the wrong kind.",
     "",
     "```jam",
     "1 + true       // `+` takes integers",
     "if 1 then 2 else 3   // the test must be a boolean",
     "~5             // `~` takes a boolean",
     "```",
     "",
     "`=` and `!=` accept any values and never raise this error."]
  | divisionByZero =>
    ["# E3005: Division by Zero",
     "",
     "The right operand of `/` evaluated to `0`."]
  | listShape =>
    ["# E3006: List Shape Violation",
     "",
     "A list operation received something that is not the list it needs:",
     "",
     "- `first` and `rest` need a non-empty list",
     "- the second argument of `cons` must be a list",
     "- the tail of a lazy cons cell must evaluate to a list",
     "",
     "```jam",
     "first(null)",
     "cons(1, 2)",
     "```",
     "",
     "Guard with `cons?(l)` or `null?(l)` before taking a list apart."]
  | integerOverflow =>
    ["# E3007: Integer Overflow",
     "",
     "Integer arithmetic left the signed 64-bit range. Jam integers do not wrap."]
  | recursionLimit =>
    ["# E3008: Recursion Limit Exceeded",
     "",
     "Evaluation nested deeper than the configured limit (`--max-depth`).",
     "",
     "The usual cause is an eager construction that never terminates, such as",
     "an infinite list built while the list discipline is `value`:",
     "",
     "```jam",
     "let mk := map self to cons(0, self(self));",
     "in first(mk(mk))",
     "```",
     "",
     "Run with `--lists=name` or `--lists=need` to build the list lazily, or raise",
     "the limit with `--max-depth=N` (`--max-depth=none` removes it)."]

/-- The explanation of a code. -/
def explanation (c : ErrorCode) : String :=
  String.join (c.explanationLines.map fun line => line ++ "\n")

end ErrorCode

end PolicyEval
