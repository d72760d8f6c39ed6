import PolicyEval.Expr.Parser

/-!
# The readers as combinations of readers

A reader takes tokens off the front, or it fails at some of them.  Here the readers of expressions
are described without the bounds that end their recursion, each as a combination of the readers that
it uses.  Unlike `reading`, the description keeps the errors.

* `Reader` — tokens to a value and the tokens left over, or an error.
* `Reader.andThen`, `Reader.yield`, `Reader.expect` — the combinations.
* `exprReader` and its siblings — the readers of expressions.
* `exprReader_if` and its siblings — each reader at the tokens that decide what it does.
-/

namespace PolicyEval

/-- Reads a value off the front of tokens. -/
def Reader (α : Type) : Type := List Token → Except ParseError (α × List Token)

namespace Reader

variable {α β : Type}

/-- Reads with `q`, and then behind it with what `f` makes of the value. -/
def andThen (q : Reader α) (f : α → Reader β) : Reader β := fun ts => do
  let p ← q ts
  f p.1 p.2

/-- Reads with `q` and returns what `f` makes of the value. -/
def yield (q : Reader α) (f : α → β) : Reader β :=
  q.andThen fun a ts => .ok (f a, ts)

/-- Reads the given sign. -/
def expect (stop : Span) (sign : Sign) (expected : Expected) : Reader Unit := fun ts =>
  (expectSign stop sign expected ts).map fun rest => ((), rest.1)

theorem exists_of_andThen_eq_ok {q : Reader α} {f : α → Reader β} {ts rest : List Token} {b : β}
    (h : q.andThen f ts = .ok (b, rest)) : ∃ a ts', f a ts' = .ok (b, rest) := by
  unfold andThen at h
  cases hq : q ts with
  | error e =>
      rw [hq] at h
      cases h
  | ok p =>
      rw [hq] at h
      exact ⟨p.1, p.2, h⟩

end Reader

/-- What a reader returns, without the bound on the tokens left over. -/
def outcome {α : Type} {n : Nat} (x : Except ParseError (Parsed α n)) :
    Except ParseError ((α × Nat) × List Token) :=
  x.map fun p => ((p.value, p.next), p.rest)

/-- The parameters that a reader returns, without the bound on the tokens left over. -/
def paramOutcome {n : Nat}
    (x : Except ParseError (List Binder × { rest : List Token // rest.length < n })) :
    Except ParseError (List Binder × List Token) :=
  x.map fun p => (p.1, p.2.1)

section

variable {α β : Type} {n m : Nat} {ts : List Token}

theorem outcome_bind {x : Except ParseError (Parsed α n)} {q : Reader (α × Nat)}
    {f : Parsed α n → Except ParseError (Parsed β m)} {g : α × Nat → Reader (β × Nat)}
    (hx : outcome x = q ts) (h : ∀ p, outcome (f p) = g (p.value, p.next) p.rest) :
    outcome (x >>= f) = q.andThen g ts := by
  unfold Reader.andThen
  rw [← hx]
  cases x with
  | error e => rfl
  | ok p => exact h p

theorem outcome_bind_self {x : Except ParseError (Parsed α n)}
    {f : Parsed α n → Except ParseError (Parsed α m)}
    (h : ∀ p, outcome (f p) = .ok ((p.value, p.next), p.rest)) :
    outcome (x >>= f) = outcome x := by
  cases x with
  | error e => rfl
  | ok p => exact h p

theorem outcome_expectSign_bind {stop : Span} {sign : Sign} {expected : Expected}
    {f : { rest : List Token // rest.length < ts.length } → Except ParseError (Parsed β m)}
    {g : Unit → Reader (β × Nat)} (h : ∀ rest, outcome (f rest) = g () rest.1) :
    outcome (expectSign stop sign expected ts >>= f) =
      (Reader.expect stop sign expected).andThen g ts := by
  unfold Reader.andThen Reader.expect
  cases expectSign stop sign expected ts with
  | error e => rfl
  | ok rest => exact h rest

theorem outcome_params_bind
    {x : Except ParseError (List Binder × { rest : List Token // rest.length < n })}
    {q : Reader (List Binder)}
    {f : List Binder × { rest : List Token // rest.length < n } → Except ParseError (Parsed β m)}
    {g : List Binder → Reader (β × Nat)} (hx : paramOutcome x = q ts)
    (h : ∀ params rest, outcome (f (params, rest)) = g params rest.1) :
    outcome (x >>= f) = q.andThen g ts := by
  unfold Reader.andThen
  rw [← hx]
  cases x with
  | error e => rfl
  | ok p => exact h p.1 p.2

theorem paramOutcome_bind
    {x : Except ParseError (List Binder × { rest : List Token // rest.length < n })}
    {q : Reader (List Binder)}
    {f : List Binder × { rest : List Token // rest.length < n } →
      Except ParseError (List Binder × { rest : List Token // rest.length < m })}
    {g : List Binder → Reader (List Binder)} (hx : paramOutcome x = q ts)
    (h : ∀ params rest, paramOutcome (f (params, rest)) = g params rest.1) :
    paramOutcome (x >>= f) = q.andThen g ts := by
  unfold Reader.andThen
  rw [← hx]
  cases x with
  | error e => rfl
  | ok p => exact h p.1 p.2

theorem paramOutcome_expectSign_bind {stop : Span} {sign : Sign} {expected : Expected}
    {f : { rest : List Token // rest.length < ts.length } →
      Except ParseError (List Binder × { rest : List Token // rest.length < m })}
    {g : Unit → Reader (List Binder)} (h : ∀ rest, paramOutcome (f rest) = g () rest.1) :
    paramOutcome (expectSign stop sign expected ts >>= f) =
      (Reader.expect stop sign expected).andThen g ts := by
  unfold Reader.andThen Reader.expect
  cases expectSign stop sign expected ts with
  | error e => rfl
  | ok rest => exact h rest

end

/-! ## The readers of expressions -/

/-- Reads an expression. -/
def exprReader (stop : Span) (next : Nat) : Reader (Expr × Nat) := fun ts =>
  outcome (parseExpr stop next ts)

/-- Reads operands joined by operators of level `min` or higher. -/
def binaryReader (stop : Span) (min next : Nat) : Reader (Expr × Nat) := fun ts =>
  outcome (parseBinary stop min next ts)

/-- Goes on behind the operand `left`. -/
def operatorsReader (stop : Span) (min : Nat) (left : Expr) (next : Nat) : Reader (Expr × Nat) :=
  fun ts => outcome (parseOperators stop min left next ts)

/-- Reads a term. -/
def termReader (stop : Span) (next : Nat) : Reader (Expr × Nat) := fun ts =>
  outcome (parseTerm stop next ts)

/-- Reads the argument lists behind a callee. -/
def callsReader (stop : Span) (callee : Expr) (next : Nat) : Reader (Expr × Nat) := fun ts =>
  outcome (parseCalls stop callee next ts)

/-- Reads the arguments of a call and the parenthesis behind them. -/
def argsReader (stop : Span) (next : Nat) : Reader ((List Expr × Span) × Nat) := fun ts =>
  outcome (parseArgs stop next ts)

/-- Reads one or more arguments and the parenthesis behind them. -/
def argListReader (stop : Span) (next : Nat) : Reader ((List Expr × Span) × Nat) := fun ts =>
  outcome (parseArgList stop next ts)

/-- Reads definitions. -/
def defsReader (stop : Span) (next : Nat) : Reader (List (Binder × Expr) × Nat) := fun ts =>
  outcome (parseDefs stop next ts)

/-- Reads one or more parameters. -/
def paramListReader (stop : Span) : Reader (List Binder) := fun ts =>
  paramOutcome (parseParamList stop ts)

/-- Reads parameters and the word behind them. -/
def paramsReader (stop : Span) : Reader (List Binder) := fun ts =>
  paramOutcome (parseParams stop ts)

section

variable (stop : Span) (next : Nat) (text : String) (span : Span) (ts : List Token)

theorem paramListReader_ident (name : Name) :
    paramListReader stop (⟨.ident name, text, span⟩ :: ts) =
      match ts with
      | ⟨.comma, _, _⟩ :: ts =>
        (paramListReader stop).yield (fun params => ⟨name, span⟩ :: params) ts
      | ts => .ok ([⟨name, span⟩], ts) := by
  unfold paramListReader
  split
  · rw [parseParamList]
    exact paramOutcome_bind rfl fun _ _ => rfl
  · rw [parseParamList]
    · rfl
    · assumption

theorem paramsReader_eq (h : ∀ text span rest, ts ≠ ⟨.keyword .toWord, text, span⟩ :: rest) :
    paramsReader stop ts =
      (paramListReader stop).andThen (fun params =>
        (Reader.expect stop (.keyword .toWord) .toWord).yield fun _ => params) ts := by
  unfold paramsReader
  rw [parseParams]
  · exact paramOutcome_bind rfl fun _ _ => paramOutcome_expectSign_bind fun _ => rfl
  · exact h

theorem exprReader_if :
    exprReader stop next (⟨.keyword .ifWord, text, span⟩ :: ts) =
      (exprReader stop next).andThen (fun test =>
        (Reader.expect stop (.keyword .thenWord) .thenWord).andThen fun _ =>
          (exprReader stop test.2).andThen fun yes =>
            (Reader.expect stop (.keyword .elseWord) .elseWord).andThen fun _ =>
              (exprReader stop yes.2).yield fun no =>
                (.cond ⟨no.2, span.merge no.1.span⟩ test.1 yes.1 no.1, no.2 + 1)) ts := by
  unfold exprReader
  rw [parseExpr]
  exact outcome_bind rfl fun _ => outcome_expectSign_bind fun _ => outcome_bind rfl fun _ =>
    outcome_expectSign_bind fun _ => outcome_bind rfl fun _ => rfl

theorem exprReader_map :
    exprReader stop next (⟨.keyword .mapWord, text, span⟩ :: ts) =
      (paramsReader stop).andThen (fun params =>
        (exprReader stop next).yield fun body =>
          (.map ⟨body.2, span.merge body.1.span⟩ params body.1, body.2 + 1)) ts := by
  unfold exprReader
  rw [parseExpr]
  exact outcome_params_bind rfl fun _ _ => outcome_bind rfl fun _ => rfl

theorem exprReader_eq_binaryReader (h : startsOpenForm ts = false) :
    exprReader stop next ts = binaryReader stop 0 next ts := by
  unfold exprReader binaryReader
  rw [parseExpr] <;>
  · rintro text span rest rfl
    cases h

theorem binaryReader_eq (min : Nat) :
    binaryReader stop min next ts =
      (termReader stop next).andThen (fun left => operatorsReader stop min left.1 left.2) ts := by
  unfold binaryReader
  rw [parseBinary]
  exact outcome_bind rfl fun _ => outcome_bind_self fun _ => rfl

/-- Reads what stands behind a binary operator. -/
def operandReader (min : Nat) : Reader (Expr × Nat) := fun ts =>
  if startsOpenForm ts then exprReader stop next ts else binaryReader stop min next ts

theorem operatorsReader_operator (min : Nat) (left : Expr) (op : BinaryOp)
    (h : ¬ op.precedence < min) :
    operatorsReader stop min left next (⟨.operator op, text, span⟩ :: ts) =
      (operandReader stop next (op.precedence + 1)).andThen (fun right =>
        operatorsReader stop min
          (.binary ⟨right.2, left.span.merge right.1.span⟩ op left right.1) (right.2 + 1)) ts := by
  unfold operatorsReader operandReader
  rw [parseOperators, if_neg h]
  cases hform : startsOpenForm ts with
  | true => exact outcome_bind (by simp [hform]; rfl) fun _ => outcome_bind_self fun _ => rfl
  | false => exact outcome_bind (by simp [hform]; rfl) fun _ => outcome_bind_self fun _ => rfl

theorem operatorsReader_of_lt (min : Nat) (left : Expr) (op : BinaryOp)
    (h : op.precedence < min) :
    operatorsReader stop min left next (⟨.operator op, text, span⟩ :: ts) =
      .ok ((left, next), ⟨.operator op, text, span⟩ :: ts) := by
  unfold operatorsReader
  rw [parseOperators, if_pos h]
  rfl

theorem operatorsReader_done (min : Nat) (left : Expr)
    (h : ∀ op text span rest, ts ≠ ⟨.operator op, text, span⟩ :: rest) :
    operatorsReader stop min left next ts = .ok ((left, next), ts) := by
  unfold operatorsReader
  rw [parseOperators]
  · rfl
  · exact h

theorem callsReader_open (callee : Expr) :
    callsReader stop callee next (⟨.openParen, text, span⟩ :: ts) =
      (argsReader stop next).andThen (fun args =>
        callsReader stop (.call ⟨args.2, callee.span.merge args.1.2⟩ callee args.1.1)
          (args.2 + 1)) ts := by
  unfold callsReader
  rw [parseCalls]
  exact outcome_bind rfl fun _ => outcome_bind_self fun _ => rfl

theorem callsReader_done (callee : Expr)
    (h : ∀ text span rest, ts ≠ ⟨.openParen, text, span⟩ :: rest) :
    callsReader stop callee next ts = .ok ((callee, next), ts) := by
  unfold callsReader
  rw [parseCalls]
  · rfl
  · exact h

theorem argsReader_close :
    argsReader stop next (⟨.closeParen, text, span⟩ :: ts) = .ok ((([], span), next), ts) := by
  unfold argsReader
  rw [parseArgs]
  rfl

theorem argsReader_eq (h : ∀ text span rest, ts ≠ ⟨.closeParen, text, span⟩ :: rest) :
    argsReader stop next ts = argListReader stop next ts := by
  unfold argsReader argListReader
  rw [parseArgs]
  exact h

/-- Reads what stands behind an argument. -/
def moreArgsReader (arg : Expr) : Reader ((List Expr × Span) × Nat)
  | ⟨.comma, _, _⟩ :: ts =>
    (argListReader stop next).yield (fun args => ((arg :: args.1.1, args.1.2), args.2)) ts
  | ⟨.closeParen, _, close⟩ :: ts => .ok ((([arg], close), next), ts)
  | ts => .error (.unexpected stop .commaOrClose ts)

theorem argListReader_eq :
    argListReader stop next ts =
      (exprReader stop next).andThen (fun arg => moreArgsReader stop arg.2 arg.1) ts := by
  unfold argListReader
  rw [parseArgList]
  refine outcome_bind rfl fun p => ?_
  obtain ⟨arg, next, rest, hfewer⟩ := p
  cases rest with
  | nil => rfl
  | cons t rest =>
      obtain ⟨sign, text, span⟩ := t
      cases sign with
      | comma =>
          dsimp only [moreArgsReader]
          exact outcome_bind rfl fun _ => rfl
      | _ => rfl

/-- Reads what stands behind a defined name. -/
def moreDefsReader (binder : Binder) : Reader (List (Binder × Expr) × Nat) :=
  (Reader.expect stop .define .defineSign).andThen fun _ =>
    (exprReader stop next).andThen fun init =>
      (Reader.expect stop .semicolon .semicolon).andThen fun _ =>
        (defsReader stop init.2).yield fun defs => ((binder, init.1) :: defs.1, defs.2)

theorem defsReader_ident (name : Name) :
    defsReader stop next (⟨.ident name, text, span⟩ :: ts) =
      moreDefsReader stop next ⟨name, span⟩ ts := by
  unfold defsReader moreDefsReader
  rw [parseDefs]
  exact outcome_expectSign_bind fun _ => outcome_bind rfl fun _ => outcome_expectSign_bind fun _ =>
    outcome_bind rfl fun _ => rfl

theorem defsReader_done (h : ∀ name text span rest, ts ≠ ⟨.ident name, text, span⟩ :: rest) :
    defsReader stop next ts = .ok (([], next), ts) := by
  unfold defsReader
  rw [parseDefs]
  · rfl
  · exact h

/-- Behind a name there is at least one definition. -/
theorem ne_nil_of_moreDefsReader {binder : Binder} {defs : List (Binder × Expr) × Nat}
    {rest : List Token} (h : moreDefsReader stop next binder ts = .ok (defs, rest)) :
    defs.1 ≠ [] := by
  obtain ⟨_, _, h⟩ := Reader.exists_of_andThen_eq_ok h
  obtain ⟨_, _, h⟩ := Reader.exists_of_andThen_eq_ok h
  obtain ⟨_, _, h⟩ := Reader.exists_of_andThen_eq_ok h
  obtain ⟨_, _, h⟩ := Reader.exists_of_andThen_eq_ok h
  cases h
  exact List.cons_ne_nil _ _

theorem exprReader_let :
    exprReader stop next (⟨.keyword .letWord, text, span⟩ :: ts) =
      (defsReader stop next).andThen (fun defs rest =>
        if defs.1.isEmpty then .error (.unexpected stop .definitionName ts)
        else
          (Reader.expect stop (.keyword .inWord) .inOrDefinition).andThen (fun _ =>
            (exprReader stop defs.2).yield fun body =>
              (.letIn ⟨body.2, span.merge body.1.span⟩ defs.1 body.1, body.2 + 1)) rest) ts := by
  unfold exprReader
  rw [parseExpr]
  refine outcome_bind rfl fun p => ?_
  cases hempty : p.value.isEmpty with
  | true => simp only [hempty]; rfl
  | false =>
      simp only [hempty, Bool.false_eq_true, if_false]
      exact outcome_expectSign_bind fun _ => outcome_bind rfl fun _ => rfl

theorem exprReader_let_ident (name : Name) (text' : String) (span' : Span) :
    exprReader stop next (⟨.keyword .letWord, text, span⟩ :: ⟨.ident name, text', span'⟩ :: ts) =
      (moreDefsReader stop next ⟨name, span'⟩).andThen (fun defs =>
        (Reader.expect stop (.keyword .inWord) .inOrDefinition).andThen fun _ =>
          (exprReader stop defs.2).yield fun body =>
            (.letIn ⟨body.2, span.merge body.1.span⟩ defs.1 body.1, body.2 + 1)) ts := by
  rw [exprReader_let]
  unfold Reader.andThen
  rw [defsReader_ident]
  cases hdefs : moreDefsReader stop next ⟨name, span'⟩ ts with
  | error e => rfl
  | ok p =>
      have hsome : p.1.1.isEmpty = false := by
        simpa using ne_nil_of_moreDefsReader stop next ts hdefs
      simp only [bind, Except.bind, hsome, Bool.false_eq_true, if_false]

theorem exprReader_let_done
    (h : ∀ name text span rest, ts ≠ ⟨.ident name, text, span⟩ :: rest) :
    exprReader stop next (⟨.keyword .letWord, text, span⟩ :: ts) =
      .error (.unexpected stop .definitionName ts) := by
  rw [exprReader_let]
  simp only [Reader.andThen, defsReader_done stop next ts h]
  rfl

theorem termReader_unary {t : Token} {op : UnaryOp} (h : t.sign.unaryOp? = some op) :
    termReader stop next (t :: ts) = (termReader stop next).yield (fun operand =>
      (.unary ⟨operand.2, t.span.merge operand.1.span⟩ op operand.1, operand.2 + 1)) ts := by
  unfold termReader
  rw [parseTerm, h]
  exact outcome_bind rfl fun _ => rfl

theorem termReader_open :
    termReader stop next (⟨.openParen, text, span⟩ :: ts) =
      (exprReader stop next).andThen (fun inner =>
        (Reader.expect stop .closeParen .closeParen).andThen fun _ =>
          callsReader stop inner.1 inner.2) ts := by
  unfold termReader
  rw [parseTerm]
  exact outcome_bind rfl fun _ => outcome_expectSign_bind fun _ => outcome_bind_self fun _ => rfl

theorem termReader_int (n : Nat) :
    termReader stop next (⟨.int n, text, span⟩ :: ts) =
      .ok ((.int ⟨next, span⟩ n, next + 1), ts) := by
  unfold termReader
  rw [parseTerm]
  rfl

theorem termReader_bool (b : Bool) :
    termReader stop next (⟨.bool b, text, span⟩ :: ts) =
      .ok ((.bool ⟨next, span⟩ b, next + 1), ts) := by
  unfold termReader
  rw [parseTerm]
  rfl

theorem termReader_null :
    termReader stop next (⟨.null, text, span⟩ :: ts) =
      .ok ((.null ⟨next, span⟩, next + 1), ts) := by
  unfold termReader
  rw [parseTerm]
  rfl

theorem termReader_prim (p : Prim) :
    termReader stop next (⟨.prim p, text, span⟩ :: ts) =
      callsReader stop (.prim ⟨next, span⟩ p) (next + 1) ts := by
  unfold termReader
  rw [parseTerm]
  rfl

theorem termReader_ident (name : Name) :
    termReader stop next (⟨.ident name, text, span⟩ :: ts) =
      callsReader stop (.ident ⟨next, span⟩ name) (next + 1) ts := by
  unfold termReader
  rw [parseTerm]
  rfl

end

end PolicyEval
