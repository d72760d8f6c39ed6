import PolicyEval.Expr
import PolicyEval.Expr.ParseError
import PolicyEval.Token.Lexer

/-!
# Reading expressions

An expression is one of four things: a choice `if … then … else …`, definitions `let x := …; … in …`
with at least one definition, a function `map x, … to …` with any number of parameters, or a chain of
terms with binary operators between them.  A term is a constant, a unary operator in front of a term,
or a callee followed by any number of argument lists; a callee is a variable, a primitive or an
expression in parentheses, so a constant is called only in parentheses.  An operand behind a binary
operator may also be one of the first three forms.

Binary operators of one level group to the left and a higher level binds tighter.  An `if`, `let` or
`map` as an operand extends as far to the right as it can.  Parentheses make no node.  Nodes are
numbered in the order in which they are finished, so the numbers of a tree count it in post-order.

Every reader returns the tokens it left over together with the fact that they are fewer; that fact
is what makes the recursion end.

* `Expr.ofTokens` — the expression that a token list spells.
* `Expr.ofSource` — the expression that a source spells.
-/

namespace PolicyEval

/-! ## Readers -/

/-- What was read, the number of the next node, and the tokens left over, fewer than `bound`. -/
structure Parsed (α : Type) (bound : Nat) where
  value : α
  next : Nat
  rest : List Token
  fewer : rest.length < bound

/-- Whether the tokens start with a form that extends to the right. -/
def startsOpenForm : List Token → Bool
  | ⟨.keyword .ifWord, _, _⟩ :: _ => true
  | ⟨.keyword .letWord, _, _⟩ :: _ => true
  | ⟨.keyword .mapWord, _, _⟩ :: _ => true
  | _ => false

/-- The unary operator that a sign is at the start of a term. -/
def Sign.unaryOp? : Sign → Option UnaryOp
  | .operator .add => some .pos
  | .operator .sub => some .neg
  | .tilde => some .not
  | _ => none

/-- Takes the given sign off the start of the tokens. -/
def expectSign (stop : Span) (sign : Sign) (expected : Expected) (ts : List Token) :
    Except ParseError { rest : List Token // rest.length < ts.length } :=
  match ts with
  | t :: rest =>
    if t.sign = sign then .ok ⟨rest, Nat.lt_succ_self _⟩
    else .error (.unexpected stop expected (t :: rest))
  | [] => .error (.unexpected stop expected [])

/-- Reads one or more parameters separated by commas. -/
def parseParamList (stop : Span) : (ts : List Token) →
    Except ParseError (List Binder × { rest : List Token // rest.length < ts.length })
  | ⟨.ident name, _, span⟩ :: ⟨.comma, _, _⟩ :: ts => do
    let (params, ⟨rest, h⟩) ← parseParamList stop ts
    return (⟨name, span⟩ :: params, ⟨rest, by simp only [List.length_cons]; omega⟩)
  | ⟨.ident name, _, span⟩ :: ts => .ok ([⟨name, span⟩], ⟨ts, Nat.lt_succ_self _⟩)
  | ts => .error (.unexpected stop .parameterName ts)

/-- Reads the parameters of a function, up to and including `to`. -/
def parseParams (stop : Span) (ts : List Token) :
    Except ParseError (List Binder × { rest : List Token // rest.length < ts.length }) :=
  match ts with
  | ⟨.keyword .toWord, _, _⟩ :: rest => .ok ([], ⟨rest, Nat.lt_succ_self _⟩)
  | ts => do
    let (params, ⟨afterParams, h₁⟩) ← parseParamList stop ts
    let ⟨rest, h₂⟩ ← expectSign stop (.keyword .toWord) .toWord afterParams
    return (params, ⟨rest, by omega⟩)

mutual
/-- Reads an expression; its first finished node gets the number `next`. -/
def parseExpr (stop : Span) (next : Nat) (ts : List Token) :
    Except ParseError (Parsed Expr ts.length) :=
  match ts with
  | ⟨.keyword .ifWord, _, span⟩ :: ts => do
    let ⟨test, next, ts₁, h₁⟩ ← parseExpr stop next ts
    let ⟨ts₂, h₂⟩ ← expectSign stop (.keyword .thenWord) .thenWord ts₁
    let ⟨yes, next, ts₃, h₃⟩ ← parseExpr stop next ts₂
    let ⟨ts₄, h₄⟩ ← expectSign stop (.keyword .elseWord) .elseWord ts₃
    let ⟨no, next, rest, h₅⟩ ← parseExpr stop next ts₄
    return ⟨.cond ⟨next, span.merge no.span⟩ test yes no, next + 1, rest,
      by simp only [List.length_cons]; omega⟩
  | ⟨.keyword .letWord, _, span⟩ :: ts => do
    let ⟨defs, next, ts₁, h₁⟩ ← parseDefs stop next ts
    if defs.isEmpty then .error (.unexpected stop .definitionName ts)
    else
      let ⟨ts₂, h₂⟩ ← expectSign stop (.keyword .inWord) .inOrDefinition ts₁
      let ⟨body, next, rest, h₃⟩ ← parseExpr stop next ts₂
      return ⟨.letIn ⟨next, span.merge body.span⟩ defs body, next + 1, rest,
        by simp only [List.length_cons]; omega⟩
  | ⟨.keyword .mapWord, _, span⟩ :: ts => do
    let (params, ⟨ts₁, h₁⟩) ← parseParams stop ts
    let ⟨body, next, rest, h₂⟩ ← parseExpr stop next ts₁
    return ⟨.map ⟨next, span.merge body.span⟩ params body, next + 1, rest,
      by simp only [List.length_cons]; omega⟩
  | ts => parseBinary stop 0 next ts
termination_by 5 * ts.length + 2

/-- Reads operands joined by binary operators of level `min` or higher. -/
def parseBinary (stop : Span) (min : Nat) (next : Nat) (ts : List Token) :
    Except ParseError (Parsed Expr ts.length) := do
  let ⟨left, next, ts₁, h₁⟩ ← parseTerm stop next ts
  let ⟨whole, next, rest, h₂⟩ ← parseOperators stop min left next ts₁
  return ⟨whole, next, rest, by omega⟩
termination_by 5 * ts.length + 1

/-- Goes on behind the operand `left` while operators of level `min` or higher follow. -/
def parseOperators (stop : Span) (min : Nat) (left : Expr) (next : Nat) (ts : List Token) :
    Except ParseError (Parsed Expr (ts.length + 1)) :=
  match ts with
  | ⟨.operator op, text, span⟩ :: ts =>
    if op.precedence < min then
      .ok ⟨left, next, ⟨.operator op, text, span⟩ :: ts, Nat.lt_succ_self _⟩
    else do
      let ⟨right, next, ts₁, h₁⟩ ←
        if startsOpenForm ts then parseExpr stop next ts
        else parseBinary stop (op.precedence + 1) next ts
      let whole := .binary ⟨next, left.span.merge right.span⟩ op left right
      let ⟨whole, next, rest, h₂⟩ ← parseOperators stop min whole (next + 1) ts₁
      return ⟨whole, next, rest, by simp only [List.length_cons]; omega⟩
  | ts => .ok ⟨left, next, ts, Nat.lt_succ_self _⟩
termination_by 5 * ts.length

/-- Reads a term: unary operators, then a constant, or a factor with its calls. -/
def parseTerm (stop : Span) (next : Nat) (ts : List Token) :
    Except ParseError (Parsed Expr ts.length) :=
  match ts with
  | [] => .error (.unexpected stop .expression [])
  | t :: ts =>
    match t.sign.unaryOp? with
    | some op => do
      let ⟨operand, next, rest, h⟩ ← parseTerm stop next ts
      return ⟨.unary ⟨next, t.span.merge operand.span⟩ op operand, next + 1, rest,
        by simp only [List.length_cons]; omega⟩
    | none =>
      match t.sign with
      | .int n => .ok ⟨.int ⟨next, t.span⟩ n, next + 1, ts, Nat.lt_succ_self _⟩
      | .bool b => .ok ⟨.bool ⟨next, t.span⟩ b, next + 1, ts, Nat.lt_succ_self _⟩
      | .null => .ok ⟨.null ⟨next, t.span⟩, next + 1, ts, Nat.lt_succ_self _⟩
      | .prim p => parseCalls stop (.prim ⟨next, t.span⟩ p) (next + 1) ts
      | .ident name => parseCalls stop (.ident ⟨next, t.span⟩ name) (next + 1) ts
      | .openParen => do
        let ⟨inner, next, ts₁, h₁⟩ ← parseExpr stop next ts
        let ⟨ts₂, h₂⟩ ← expectSign stop .closeParen .closeParen ts₁
        let ⟨whole, next, rest, h₃⟩ ← parseCalls stop inner next ts₂
        return ⟨whole, next, rest, by simp only [List.length_cons]; omega⟩
      | _ => .error (.unexpected stop .expression (t :: ts))
termination_by 5 * ts.length

/-- Reads the argument lists that follow a callee. -/
def parseCalls (stop : Span) (callee : Expr) (next : Nat) (ts : List Token) :
    Except ParseError (Parsed Expr (ts.length + 1)) :=
  match ts with
  | ⟨.openParen, _, _⟩ :: ts => do
    let ⟨(args, close), next, ts₁, h₁⟩ ← parseArgs stop next ts
    let whole := .call ⟨next, callee.span.merge close⟩ callee args
    let ⟨whole, next, rest, h₂⟩ ← parseCalls stop whole (next + 1) ts₁
    return ⟨whole, next, rest, by simp only [List.length_cons]; omega⟩
  | ts => .ok ⟨callee, next, ts, Nat.lt_succ_self _⟩
termination_by 5 * ts.length

/-- Reads the arguments of a call behind `(`, up to and including `)`, whose span it returns. -/
def parseArgs (stop : Span) (next : Nat) (ts : List Token) :
    Except ParseError (Parsed (List Expr × Span) ts.length) :=
  match ts with
  | ⟨.closeParen, _, close⟩ :: rest => .ok ⟨([], close), next, rest, Nat.lt_succ_self _⟩
  | ts => parseArgList stop next ts
termination_by 5 * ts.length + 4

/-- Reads one or more arguments separated by commas, up to and including `)`. -/
def parseArgList (stop : Span) (next : Nat) (ts : List Token) :
    Except ParseError (Parsed (List Expr × Span) ts.length) := do
  let ⟨arg, next, ts₁, h₁⟩ ← parseExpr stop next ts
  match ts₁, h₁ with
  | ⟨.comma, _, _⟩ :: ts₂, h₁ =>
    have : ts₂.length < ts.length := by simp only [List.length_cons] at h₁; omega
    let ⟨(args, close), next, rest, h₂⟩ ← parseArgList stop next ts₂
    return ⟨(arg :: args, close), next, rest, by omega⟩
  | ⟨.closeParen, _, close⟩ :: rest, h₁ =>
    return ⟨([arg], close), next, rest, by simp only [List.length_cons] at h₁; omega⟩
  | ts₁, _ => .error (.unexpected stop .commaOrClose ts₁)
termination_by 5 * ts.length + 3

/-- Reads definitions as long as names follow. -/
def parseDefs (stop : Span) (next : Nat) (ts : List Token) :
    Except ParseError (Parsed (List (Binder × Expr)) (ts.length + 1)) :=
  match ts with
  | ⟨.ident name, _, span⟩ :: ts => do
    let ⟨ts₁, h₁⟩ ← expectSign stop .define .defineSign ts
    let ⟨init, next, ts₂, h₂⟩ ← parseExpr stop next ts₁
    let ⟨ts₃, h₃⟩ ← expectSign stop .semicolon .semicolon ts₂
    let ⟨defs, next, rest, h₄⟩ ← parseDefs stop next ts₃
    return ⟨(⟨name, span⟩, init) :: defs, next, rest, by simp only [List.length_cons]; omega⟩
  | ts => .ok ⟨[], next, ts, Nat.lt_succ_self _⟩
termination_by 5 * ts.length
end

namespace Expr

/-- The expression that a token list spells.  All tokens must belong to it. -/
def ofTokens (ts : TokenList) : Except ParseError Expr := do
  let parsed ← parseExpr ts.stop 0 ts.tokens
  match parsed.rest with
  | [] => return parsed.value
  | t :: _ => .error ⟨.trailingInput t.sign, t.span⟩

end Expr

/-! ## Sources -/

namespace Expr

/-- The expression that a source spells, and the table of its names, which extends `names`. -/
def ofSourceWith (names : Interner) (source : String) : Except SyntaxError (Expr × Interner) :=
  match TokenList.ofSourceWith names source with
  | .error e => .error (.lex e)
  | .ok ts =>
    match Expr.ofTokens ts with
    | .error e => .error (.parse e)
    | .ok expr => .ok (expr, ts.names)

/-- The expression that a source spells. -/
def ofSource (source : String) : Except SyntaxError Expr :=
  (ofSourceWith Interner.empty source).map Prod.fst

end Expr

end PolicyEval
