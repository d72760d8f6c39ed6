import PolicyEval.Expr.Parser

/-!
# The readers without their bounds

Every reader returns the fact that it left fewer tokens, which ends its recursion.  Here the readers
are described without that fact, by what they return: nothing, or a value, the number of the next
node and the tokens left over.

* `reading` — what a reader returns.
* `reading_parseExpr` and its siblings — each reader in terms of the readers that it uses.
-/

namespace PolicyEval

/-- What a reader returns, without the bound on the tokens left over. -/
def reading {α : Type} {n : Nat} : Except ParseError (Parsed α n) → Option (α × Nat × List Token)
  | .ok p => some (p.value, p.next, p.rest)
  | .error _ => none

/-- The parameters that a reader returns and the tokens left over, without their bound. -/
def paramReading {α : Type} {n : Nat} :
    Except ParseError (α × { rest : List Token // rest.length < n }) → Option (α × List Token)
  | .ok (a, rest) => some (a, rest.1)
  | .error _ => none

/-- The tokens behind the given sign. -/
def takeSign (sign : Sign) : List Token → Option (List Token)
  | [] => none
  | t :: ts => if t.sign = sign then some ts else none

section

variable {α β : Type} {n m : Nat}

theorem reading_bind_eq {x : Except ParseError (Parsed α n)}
    {f : Parsed α n → Except ParseError (Parsed β m)}
    {g : α × Nat × List Token → Option (β × Nat × List Token)}
    (h : ∀ p, reading (f p) = g (p.value, p.next, p.rest)) :
    reading (x >>= f) = (reading x).bind g := by
  cases x with
  | error e => rfl
  | ok p => exact h p

/-- A sign is taken off, or it is not there. -/
theorem expectSign_cases (stop : Span) (sign : Sign) (expected : Expected) (ts : List Token) :
    (∃ rest, expectSign stop sign expected ts = .ok rest ∧ takeSign sign ts = some rest.1) ∨
      ∃ e, expectSign stop sign expected ts = .error e ∧ takeSign sign ts = none := by
  cases ts with
  | nil => exact .inr ⟨_, rfl, rfl⟩
  | cons t ts =>
      by_cases hsign : t.sign = sign
      · exact .inl ⟨⟨ts, Nat.lt_succ_self _⟩, if_pos hsign, if_pos hsign⟩
      · exact .inr ⟨_, if_neg hsign, if_neg hsign⟩

theorem reading_expectSign_bind {stop : Span} {sign : Sign} {expected : Expected} {ts : List Token}
    {f : { rest : List Token // rest.length < ts.length } → Except ParseError (Parsed β m)}
    {g : List Token → Option (β × Nat × List Token)} (h : ∀ rest, reading (f rest) = g rest.1) :
    reading (expectSign stop sign expected ts >>= f) = (takeSign sign ts).bind g := by
  cases expectSign_cases stop sign expected ts with
  | inl hok =>
      obtain ⟨rest, hexpect, htake⟩ := hok
      rw [hexpect, htake]
      exact h rest
  | inr herror =>
      obtain ⟨e, hexpect, htake⟩ := herror
      rw [hexpect, htake]
      rfl

theorem exists_of_reading_eq_some {x : Except ParseError (Parsed α n)} {a : α} {next : Nat}
    {rest : List Token} (h : reading x = some (a, next, rest)) :
    ∃ hfewer, x = .ok ⟨a, next, rest, hfewer⟩ := by
  cases x with
  | error e => cases h
  | ok p =>
      cases h
      exact ⟨p.fewer, rfl⟩

/-- A reader that only widens the bound. -/
theorem reading_bind_self {x : Except ParseError (Parsed α n)}
    {f : Parsed α n → Except ParseError (Parsed α m)}
    (h : ∀ p, reading (f p) = some (p.value, p.next, p.rest)) :
    reading (x >>= f) = reading x := by
  cases x with
  | error e => rfl
  | ok p => exact h p

theorem paramReading_bind {x : Except ParseError (α × { rest : List Token // rest.length < n })}
    {f : α × { rest : List Token // rest.length < n } →
      Except ParseError (β × { rest : List Token // rest.length < m })}
    {g : α × List Token → Option (β × List Token)}
    (h : ∀ a rest, paramReading (f (a, rest)) = g (a, rest.1)) :
    paramReading (x >>= f) = (paramReading x).bind g := by
  cases x with
  | error e => rfl
  | ok p => exact h p.1 p.2

theorem paramReading_expectSign_bind {stop : Span} {sign : Sign} {expected : Expected}
    {ts : List Token} {f : { rest : List Token // rest.length < ts.length } →
      Except ParseError (β × { rest : List Token // rest.length < m })}
    {g : List Token → Option (β × List Token)} (h : ∀ rest, paramReading (f rest) = g rest.1) :
    paramReading (expectSign stop sign expected ts >>= f) = (takeSign sign ts).bind g := by
  cases expectSign_cases stop sign expected ts with
  | inl hok =>
      obtain ⟨rest, hexpect, htake⟩ := hok
      rw [hexpect, htake]
      exact h rest
  | inr herror =>
      obtain ⟨e, hexpect, htake⟩ := herror
      rw [hexpect, htake]
      rfl

theorem reading_parseParams_bind {stop : Span} {ts : List Token}
    {f : List Binder × { rest : List Token // rest.length < ts.length } →
      Except ParseError (Parsed β m)}
    {g : List Binder × List Token → Option (β × Nat × List Token)}
    (h : ∀ params rest, reading (f (params, rest)) = g (params, rest.1)) :
    reading (parseParams stop ts >>= f) = (paramReading (parseParams stop ts)).bind g := by
  cases parseParams stop ts with
  | error e => rfl
  | ok p => exact h p.1 p.2

end

variable (stop : Span)

theorem paramReading_parseParamList (ts : List Token) :
    paramReading (parseParamList stop ts) =
      match ts with
      | ⟨.ident name, _, span⟩ :: ⟨.comma, _, _⟩ :: ts => do
        let (params, ts) ← paramReading (parseParamList stop ts)
        return (⟨name, span⟩ :: params, ts)
      | ⟨.ident name, _, span⟩ :: ts => some ([⟨name, span⟩], ts)
      | _ => none := by
  split
  · rw [parseParamList]
    exact paramReading_bind fun _ _ => rfl
  · rw [parseParamList]
    · rfl
    · assumption
  · rw [parseParamList]
    · rfl
    · assumption
    · assumption

theorem paramReading_parseParams (ts : List Token) :
    paramReading (parseParams stop ts) =
      match ts with
      | ⟨.keyword .toWord, _, _⟩ :: ts => some ([], ts)
      | ts => do
        let (params, ts) ← paramReading (parseParamList stop ts)
        let ts ← takeSign (.keyword .toWord) ts
        return (params, ts) := by
  split
  · rfl
  · rw [parseParams]
    · exact paramReading_bind fun _ _ => paramReading_expectSign_bind fun _ => rfl
    · assumption

theorem reading_parseExpr (next : Nat) (ts : List Token) :
    reading (parseExpr stop next ts) =
      match ts with
      | ⟨.keyword .ifWord, _, span⟩ :: ts => do
        let (test, next, ts) ← reading (parseExpr stop next ts)
        let ts ← takeSign (.keyword .thenWord) ts
        let (yes, next, ts) ← reading (parseExpr stop next ts)
        let ts ← takeSign (.keyword .elseWord) ts
        let (no, next, ts) ← reading (parseExpr stop next ts)
        return (.cond ⟨next, span.merge no.span⟩ test yes no, next + 1, ts)
      | ⟨.keyword .letWord, _, span⟩ :: ts => do
        let (defs, next, ts) ← reading (parseDefs stop next ts)
        if defs.isEmpty then none
        else
          let ts ← takeSign (.keyword .inWord) ts
          let (body, next, ts) ← reading (parseExpr stop next ts)
          return (.letIn ⟨next, span.merge body.span⟩ defs body, next + 1, ts)
      | ⟨.keyword .mapWord, _, span⟩ :: ts => do
        let (params, ts) ← paramReading (parseParams stop ts)
        let (body, next, ts) ← reading (parseExpr stop next ts)
        return (.map ⟨next, span.merge body.span⟩ params body, next + 1, ts)
      | ts => reading (parseBinary stop 0 next ts) := by
  split
  · rw [parseExpr]
    exact reading_bind_eq fun _ => reading_expectSign_bind fun _ => reading_bind_eq fun _ =>
      reading_expectSign_bind fun _ => reading_bind_eq fun _ => rfl
  · rw [parseExpr]
    refine reading_bind_eq fun p => ?_
    cases hempty : p.value.isEmpty with
    | true => simp only [hempty]; rfl
    | false =>
        simp only [hempty]
        exact reading_expectSign_bind fun _ => reading_bind_eq fun _ => rfl
  · rw [parseExpr]
    refine reading_parseParams_bind fun _ _ => reading_bind_eq fun _ => rfl
  · rw [parseExpr] <;> assumption

theorem reading_parseBinary (min next : Nat) (ts : List Token) :
    reading (parseBinary stop min next ts) =
      (reading (parseTerm stop next ts)).bind fun (left, next, ts) =>
        reading (parseOperators stop min left next ts) := by
  rw [parseBinary]
  exact reading_bind_eq fun _ => reading_bind_self fun _ => rfl

theorem reading_parseOperators (min : Nat) (left : Expr) (next : Nat) (ts : List Token) :
    reading (parseOperators stop min left next ts) =
      match ts with
      | ⟨.operator op, text, span⟩ :: ts =>
        if op.precedence < min then some (left, next, ⟨.operator op, text, span⟩ :: ts)
        else
          (if startsOpenForm ts then reading (parseExpr stop next ts)
            else reading (parseBinary stop (op.precedence + 1) next ts)).bind
            fun (right, next, ts) =>
              reading (parseOperators stop min
                (.binary ⟨next, left.span.merge right.span⟩ op left right) (next + 1) ts)
      | ts => some (left, next, ts) := by
  split
  · rw [parseOperators]
    split
    · rfl
    · cases startsOpenForm _ with
      | true => exact reading_bind_eq fun _ => reading_bind_self fun _ => rfl
      | false => exact reading_bind_eq fun _ => reading_bind_self fun _ => rfl
  · rw [parseOperators]
    · rfl
    · assumption

theorem reading_parseTerm (next : Nat) (ts : List Token) :
    reading (parseTerm stop next ts) =
      match ts with
      | [] => none
      | t :: ts =>
        match t.sign.unaryOp? with
        | some op => do
          let (operand, next, ts) ← reading (parseTerm stop next ts)
          return (.unary ⟨next, t.span.merge operand.span⟩ op operand, next + 1, ts)
        | none =>
          match t.sign with
          | .int n => some (.int ⟨next, t.span⟩ n, next + 1, ts)
          | .bool b => some (.bool ⟨next, t.span⟩ b, next + 1, ts)
          | .null => some (.null ⟨next, t.span⟩, next + 1, ts)
          | .prim p => reading (parseCalls stop (.prim ⟨next, t.span⟩ p) (next + 1) ts)
          | .ident name => reading (parseCalls stop (.ident ⟨next, t.span⟩ name) (next + 1) ts)
          | .openParen => do
            let (inner, next, ts) ← reading (parseExpr stop next ts)
            let ts ← takeSign .closeParen ts
            reading (parseCalls stop inner next ts)
          | _ => Option.none := by
  cases ts with
  | nil => rw [parseTerm]; rfl
  | cons t ts =>
      rw [parseTerm]
      dsimp only
      cases t.sign.unaryOp? with
      | some op => exact reading_bind_eq fun _ => rfl
      | none =>
          cases t.sign with
          | openParen =>
              exact reading_bind_eq fun _ => reading_expectSign_bind fun _ =>
                reading_bind_self fun _ => rfl
          | _ => rfl

theorem reading_parseCalls (callee : Expr) (next : Nat) (ts : List Token) :
    reading (parseCalls stop callee next ts) =
      match ts with
      | ⟨.openParen, _, _⟩ :: ts => do
        let ((args, close), next, ts) ← reading (parseArgs stop next ts)
        reading (parseCalls stop (.call ⟨next, callee.span.merge close⟩ callee args) (next + 1) ts)
      | ts => some (callee, next, ts) := by
  split
  · rw [parseCalls]
    exact reading_bind_eq fun _ => reading_bind_self fun _ => rfl
  · rw [parseCalls]
    · rfl
    · assumption

theorem reading_parseArgs (next : Nat) (ts : List Token) :
    reading (parseArgs stop next ts) =
      match ts with
      | ⟨.closeParen, _, close⟩ :: ts => some (([], close), next, ts)
      | ts => reading (parseArgList stop next ts) := by
  split
  · rw [parseArgs]
    rfl
  · rw [parseArgs]
    assumption

theorem reading_parseArgList (next : Nat) (ts : List Token) :
    reading (parseArgList stop next ts) =
      (reading (parseExpr stop next ts)).bind fun (arg, next, ts) =>
        match ts with
        | ⟨.comma, _, _⟩ :: ts => do
          let ((args, close), next, ts) ← reading (parseArgList stop next ts)
          return ((arg :: args, close), next, ts)
        | ⟨.closeParen, _, close⟩ :: ts => some (([arg], close), next, ts)
        | _ => none := by
  rw [parseArgList]
  refine reading_bind_eq fun p => ?_
  obtain ⟨arg, next, rest, hfewer⟩ := p
  cases rest with
  | nil => rfl
  | cons t rest =>
      obtain ⟨sign, text, span⟩ := t
      cases sign with
      | comma => exact reading_bind_eq fun _ => rfl
      | _ => rfl

theorem reading_parseDefs (next : Nat) (ts : List Token) :
    reading (parseDefs stop next ts) =
      match ts with
      | ⟨.ident name, _, span⟩ :: ts => do
        let ts ← takeSign .define ts
        let (init, next, ts) ← reading (parseExpr stop next ts)
        let ts ← takeSign .semicolon ts
        let (defs, next, ts) ← reading (parseDefs stop next ts)
        return ((⟨name, span⟩, init) :: defs, next, ts)
      | ts => some ([], next, ts) := by
  split
  · rw [parseDefs]
    exact reading_expectSign_bind fun _ => reading_bind_eq fun _ => reading_expectSign_bind fun _ =>
      reading_bind_eq fun _ => rfl
  · rw [parseDefs]
    · rfl
    · assumption

end PolicyEval
