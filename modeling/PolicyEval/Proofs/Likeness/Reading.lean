import PolicyEval.Expr.Parser
import PolicyEval.Proofs.Likeness.Tree

/-!
# Token lists that are alike are read alike

A reader goes by the signs of the tokens, never by the number of a name or by a span.  So from token
lists that are alike it reads trees that are alike and leaves tokens that are alike, or it fails on
both, for the same reason and at places that are alike.

* `ParseError.Alike` — failures that are alike.
* `ExceptRel` — results that correspond, or errors that correspond.
* `parseExpr_alike` and its siblings — the readers.
* `Expr.ofTokens_alike` — whole token lists.
-/

namespace PolicyEval

/-! ## Outcomes -/

/-- Results that correspond, or errors that correspond. -/
inductive ExceptRel {ε ε' α β : Type} (E : ε → ε' → Prop) (R : α → β → Prop) :
    Except ε α → Except ε' β → Prop
  | ok {a : α} {b : β} (h : R a b) : ExceptRel E R (.ok a) (.ok b)
  | error {e : ε} {e' : ε'} (h : E e e') : ExceptRel E R (.error e) (.error e')

theorem ExceptRel.bind {ε ε' α β γ δ : Type} {E : ε → ε' → Prop} {R : α → β → Prop}
    {S : γ → δ → Prop} {x : Except ε α} {x' : Except ε' β} {f : α → Except ε γ}
    {f' : β → Except ε' δ} (h : ExceptRel E R x x')
    (hnext : ∀ a b, R a b → ExceptRel E S (f a) (f' b)) : ExceptRel E S (x >>= f) (x' >>= f') := by
  cases h with
  | ok h => exact hnext _ _ h
  | error h => exact .error h

/-- The same is missing or left over, and signs that were found are alike. -/
inductive ParseCause.Alike (L : Likeness) : ParseCause → ParseCause → Prop
  | unexpectedToken (expected : Expected) {found found' : Sign} (h : found.Alike L found') :
      Alike L (.unexpectedToken expected found) (.unexpectedToken expected found')
  | unexpectedEnd (expected : Expected) :
      Alike L (.unexpectedEnd expected) (.unexpectedEnd expected)
  | trailingInput {found found' : Sign} (h : found.Alike L found') :
      Alike L (.trailingInput found) (.trailingInput found')

/-- Failures for the same reason at places that are alike. -/
structure ParseError.Alike (L : Likeness) (e e' : ParseError) : Prop where
  cause : e.cause.Alike L e'.cause
  span : L.span e.span e'.span

/-- Values that correspond, the same number of nodes, and tokens that are alike. -/
structure Parsed.Alike (L : Likeness) {α β : Type} (R : α → β → Prop) {n m : Nat} (p : Parsed α n)
    (q : Parsed β m) : Prop where
  value : R p.value q.value
  next : p.next = q.next
  rest : List.Forall₂ (Token.Alike L) p.rest q.rest

/-- Goes on behind readers that are alike. -/
theorem ExceptRel.bindParsed {L : Likeness} {α β γ δ : Type} {R : α → β → Prop} {S : γ → δ → Prop}
    {n m : Nat} {x : Except ParseError (Parsed α n)} {x' : Except ParseError (Parsed β m)}
    {f : Parsed α n → Except ParseError γ} {f' : Parsed β m → Except ParseError δ}
    (h : ExceptRel (ParseError.Alike L) (Parsed.Alike L R) x x')
    (hnext : ∀ a b next rest rest' hfewer hfewer', R a b →
      List.Forall₂ (Token.Alike L) rest rest' →
      ExceptRel (ParseError.Alike L) S (f ⟨a, next, rest, hfewer⟩) (f' ⟨b, next, rest', hfewer'⟩)) :
    ExceptRel (ParseError.Alike L) S (x >>= f) (x' >>= f') := by
  refine h.bind ?_
  rintro ⟨a, next, rest, hfewer⟩ ⟨b, next', rest', hfewer'⟩ ⟨hvalue, hsame, hrest⟩
  obtain rfl : next = next' := hsame
  exact hnext a b next rest rest' hfewer hfewer' hvalue hrest

/-- The tokens start with the sign. -/
def StartsWith (sign : Sign) (ts : List Token) : Prop := ∃ t ∈ ts.head?, t.sign = sign

/-- Arguments that are alike one by one, and closing parentheses at places that are alike. -/
def ArgsAlike (L : Likeness) (a a' : List Expr × Span) : Prop :=
  Expr.ListAlike L a.1 a'.1 ∧ L.span a.2 a'.2

section

variable {L : Likeness} {stop stop' : Span} {ts ts' : List Token}

theorem ParseError.Alike.unexpected (hstop : L.span stop stop') (expected : Expected)
    (h : List.Forall₂ (Token.Alike L) ts ts') :
    (ParseError.unexpected stop expected ts).Alike L (.unexpected stop' expected ts') := by
  cases h with
  | nil => exact ⟨.unexpectedEnd expected, hstop⟩
  | cons ht _ => exact ⟨.unexpectedToken expected ht.sign, ht.span⟩

/-- Tokens that are alike start with the same sign, unless it is a name. -/
theorem StartsWith.exists_of_alike {sign : Sign} (hstart : StartsWith sign ts)
    (hsign : sign.isIdent = false) (h : List.Forall₂ (Token.Alike L) ts ts') :
    ∃ text text' span span' rest rest', ts = ⟨sign, text, span⟩ :: rest ∧
      ts' = ⟨sign, text', span'⟩ :: rest' ∧ L.span span span' ∧
      List.Forall₂ (Token.Alike L) rest rest' := by
  obtain ⟨t, hhead, rfl⟩ := hstart
  cases h with
  | nil => cases hhead
  | @cons u u' us us' hu hus =>
      cases hhead
      obtain ⟨sign, text, span⟩ := t
      obtain ⟨sign', text', span'⟩ := u'
      obtain rfl : sign' = sign := (hu.sign.eq_iff hsign).1 rfl
      exact ⟨text, text', span, span', us, us', rfl, rfl, hu.span, hus⟩

theorem startsWith_iff {sign : Sign} (hsign : sign.isIdent = false)
    (h : List.Forall₂ (Token.Alike L) ts ts') : StartsWith sign ts ↔ StartsWith sign ts' := by
  cases h with
  | nil => exact Iff.rfl
  | cons ht _ => simpa [StartsWith] using ht.sign.eq_iff hsign

/-- Takes a sign off tokens that are alike, and goes on behind it. -/
theorem ExceptRel.bindSign {γ δ : Type} {S : γ → δ → Prop} (hstop : L.span stop stop') {sign : Sign}
    (hsign : sign.isIdent = false) (expected : Expected) (h : List.Forall₂ (Token.Alike L) ts ts')
    {f : { rest : List Token // rest.length < ts.length } → Except ParseError γ}
    {f' : { rest : List Token // rest.length < ts'.length } → Except ParseError δ}
    (hnext : ∀ rest rest' hfewer hfewer', List.Forall₂ (Token.Alike L) rest rest' →
      ExceptRel (ParseError.Alike L) S (f ⟨rest, hfewer⟩) (f' ⟨rest', hfewer'⟩)) :
    ExceptRel (ParseError.Alike L) S (expectSign stop sign expected ts >>= f)
      (expectSign stop' sign expected ts' >>= f') := by
  cases h with
  | nil => exact .error (.unexpected hstop expected .nil)
  | @cons t t' ts ts' ht hts =>
      by_cases heq : t.sign = sign
      · rw [expectSign, expectSign, if_pos heq, if_pos ((ht.sign.eq_iff hsign).1 heq)]
        exact hnext ts ts' _ _ hts
      · rw [expectSign, expectSign, if_neg heq, if_neg (mt (ht.sign.eq_iff hsign).2 heq)]
        exact .error (.unexpected hstop expected (.cons ht hts))

theorem startsOpenForm_eq (h : List.Forall₂ (Token.Alike L) ts ts') :
    startsOpenForm ts = startsOpenForm ts' := by
  cases h with
  | nil => rfl
  | @cons t t' ts ts' ht hts =>
      obtain ⟨sign, text, span⟩ := t
      obtain ⟨sign', text', span'⟩ := t'
      obtain ⟨hsign, -, -⟩ := ht
      cases hsign with
      | ident => rfl
      | other =>
          cases sign with
          | keyword k => cases k <;> rfl
          | _ => rfl

theorem Sign.Alike.unaryOp?_eq {s s' : Sign} (h : s.Alike L s') : s.unaryOp? = s'.unaryOp? := by
  cases h with
  | ident => rfl
  | other => rfl

/-- Parameters that are alike, and tokens that are alike behind them. -/
abbrev ParamsAlike (L : Likeness) {n m : Nat}
    (p : List Binder × { rest : List Token // rest.length < n })
    (q : List Binder × { rest : List Token // rest.length < m }) : Prop :=
  List.Forall₂ (Binder.Alike L) p.1 q.1 ∧ List.Forall₂ (Token.Alike L) p.2.1 q.2.1

theorem parseParamList_alike (hstop : L.span stop stop') : {ts ts' : List Token} →
    List.Forall₂ (Token.Alike L) ts ts' →
    ExceptRel (ParseError.Alike L) (ParamsAlike L) (parseParamList stop ts)
      (parseParamList stop' ts')
  | [], _, .nil => .error (.unexpected hstop .parameterName .nil)
  | ⟨sign, text, span⟩ :: ts, ⟨sign', text', span'⟩ :: ts', .cons ht hts => by
      have herror := ParseError.Alike.unexpected hstop .parameterName (.cons ht hts)
      obtain ⟨hsign, -, hspan⟩ := ht
      cases hsign with
      | other hother =>
          cases sign with
          | ident => cases hother
          | _ => exact .error herror
      | @ident name name' hname =>
          have hone : List.Forall₂ (Binder.Alike L) [⟨name, span⟩] [⟨name', span'⟩] :=
            .cons ⟨hname, hspan⟩ .nil
          cases hts with
          | nil => exact .ok ⟨hone, .nil⟩
          | @cons u u' us us' hu hus =>
              have hrest := List.Forall₂.cons hu hus
              obtain ⟨usign, utext, uspan⟩ := u
              obtain ⟨usign', utext', uspan'⟩ := u'
              obtain ⟨husign, -, -⟩ := hu
              cases husign with
              | ident => exact .ok ⟨hone, hrest⟩
              | other =>
                  cases usign with
                  | comma =>
                      refine (parseParamList_alike hstop hus).bind ?_
                      rintro ⟨params, rest⟩ ⟨params', rest'⟩ ⟨hparams, hrest⟩
                      exact .ok ⟨.cons ⟨hname, hspan⟩ hparams, hrest⟩
                  | _ => exact .ok ⟨hone, hrest⟩

theorem parseParams_of_other (stop : Span) {ts : List Token}
    (h : ¬StartsWith (.keyword .toWord) ts) :
    parseParams stop ts = parseParamList stop ts >>= fun params =>
      expectSign stop (.keyword .toWord) .toWord params.2.1 >>= fun rest =>
        pure (params.1, ⟨rest.1, Nat.lt_trans rest.2 params.2.2⟩) := by
  unfold parseParams
  split
  · exact absurd ⟨_, rfl, rfl⟩ h
  · rfl

theorem parseParams_alike (hstop : L.span stop stop') (h : List.Forall₂ (Token.Alike L) ts ts') :
    ExceptRel (ParseError.Alike L) (ParamsAlike L) (parseParams stop ts)
      (parseParams stop' ts') := by
  by_cases hto : StartsWith (.keyword .toWord) ts
  · obtain ⟨text, text', span, span', rest, rest', rfl, rfl, hspan, hrest⟩ :=
      hto.exists_of_alike rfl h
    exact .ok ⟨.nil, hrest⟩
  · rw [parseParams_of_other stop hto, parseParams_of_other stop' (mt (startsWith_iff rfl h).2 hto)]
    refine (parseParamList_alike hstop h).bind ?_
    rintro ⟨params, afterParams, h₁⟩ ⟨params', afterParams', h₁'⟩ ⟨hparams, hafter⟩
    exact .bindSign hstop rfl .toWord hafter fun rest rest' _ _ hrest => .ok ⟨hparams, hrest⟩

end

/-! ## The readers -/

section

variable {stop : Span} {next : Nat} {ts : List Token}

theorem parseExpr_of_other (hif : ¬StartsWith (.keyword .ifWord) ts)
    (hlet : ¬StartsWith (.keyword .letWord) ts) (hmap : ¬StartsWith (.keyword .mapWord) ts) :
    parseExpr stop next ts = parseBinary stop 0 next ts := by
  unfold parseExpr
  split
  · exact absurd ⟨_, rfl, rfl⟩ hif
  · exact absurd ⟨_, rfl, rfl⟩ hlet
  · exact absurd ⟨_, rfl, rfl⟩ hmap
  · rfl

theorem parseOperators_of_other {min : Nat} {left : Expr}
    (h : ∀ op, ¬StartsWith (.operator op) ts) :
    parseOperators stop min left next ts = .ok ⟨left, next, ts, Nat.lt_succ_self _⟩ := by
  unfold parseOperators
  split
  · exact absurd ⟨_, rfl, rfl⟩ (h _)
  · rfl

theorem parseCalls_of_other {callee : Expr} (h : ¬StartsWith .openParen ts) :
    parseCalls stop callee next ts = .ok ⟨callee, next, ts, Nat.lt_succ_self _⟩ := by
  unfold parseCalls
  split
  · exact absurd ⟨_, rfl, rfl⟩ h
  · rfl

theorem parseArgs_of_other (h : ¬StartsWith .closeParen ts) :
    parseArgs stop next ts = parseArgList stop next ts := by
  unfold parseArgs
  split
  · exact absurd ⟨_, rfl, rfl⟩ h
  · rfl

theorem parseDefs_of_other (h : ∀ name, ¬StartsWith (.ident name) ts) :
    parseDefs stop next ts = .ok ⟨[], next, ts, Nat.lt_succ_self _⟩ := by
  unfold parseDefs
  split
  · exact absurd ⟨_, rfl, rfl⟩ (h _)
  · rfl

end

section

variable {L : Likeness} {stop stop' : Span}

mutual
theorem parseExpr_alike (hstop : L.span stop stop') (next : Nat) {ts ts' : List Token}
    (h : List.Forall₂ (Token.Alike L) ts ts') :
    ExceptRel (ParseError.Alike L) (Parsed.Alike L (Expr.Alike L)) (parseExpr stop next ts)
      (parseExpr stop' next ts') := by
  by_cases hif : StartsWith (.keyword .ifWord) ts
  · obtain ⟨text, text', span, span', ts, ts', rfl, rfl, hspan, hts⟩ := hif.exists_of_alike rfl h
    rw [parseExpr, parseExpr]
    refine (parseExpr_alike hstop next hts).bindParsed
      fun test test' n₁ ts₁ ts₁' h₁ _ htest hts₁ => ?_
    refine .bindSign hstop rfl .thenWord hts₁ fun ts₂ ts₂' h₂ _ hts₂ => ?_
    refine (parseExpr_alike hstop n₁ hts₂).bindParsed fun yes yes' n₂ ts₃ ts₃' h₃ _ hyes hts₃ => ?_
    refine .bindSign hstop rfl .elseWord hts₃ fun ts₄ ts₄' h₄ _ hts₄ => ?_
    refine (parseExpr_alike hstop n₂ hts₄).bindParsed fun no no' n₃ rest rest' _ _ hno hrest => ?_
    exact .ok ⟨.cond ⟨rfl, L.merge hspan hno.span⟩ htest hyes hno, rfl, hrest⟩
  by_cases hlet : StartsWith (.keyword .letWord) ts
  · obtain ⟨text, text', span, span', ts, ts', rfl, rfl, hspan, hts⟩ := hlet.exists_of_alike rfl h
    rw [parseExpr, parseExpr]
    refine (parseDefs_alike hstop next hts).bindParsed
      fun defs defs' n₁ ts₁ ts₁' h₁ _ hdefs hts₁ => ?_
    cases hdefs with
    | nil => exact .error (.unexpected hstop .definitionName hts)
    | cons hb he hds =>
        refine .bindSign hstop rfl .inOrDefinition hts₁ fun ts₂ ts₂' h₂ _ hts₂ => ?_
        refine (parseExpr_alike hstop n₁ hts₂).bindParsed
          fun body body' n₂ rest rest' _ _ hbody hrest => ?_
        exact .ok ⟨.letIn ⟨rfl, L.merge hspan hbody.span⟩ (.cons hb he hds) hbody, rfl, hrest⟩
  by_cases hmap : StartsWith (.keyword .mapWord) ts
  · obtain ⟨text, text', span, span', ts, ts', rfl, rfl, hspan, hts⟩ := hmap.exists_of_alike rfl h
    rw [parseExpr, parseExpr]
    refine (parseParams_alike hstop hts).bind ?_
    rintro ⟨params, ts₁, h₁⟩ ⟨params', ts₁', h₁'⟩ ⟨hparams, hts₁⟩
    refine (parseExpr_alike hstop next hts₁).bindParsed
      fun body body' n₁ rest rest' _ _ hbody hrest => ?_
    exact .ok ⟨.map ⟨rfl, L.merge hspan hbody.span⟩ hparams hbody, rfl, hrest⟩
  -- Words are the same on both sides, so neither side starts with one of a form.
  rw [parseExpr_of_other hif hlet hmap, parseExpr_of_other (mt (startsWith_iff rfl h).2 hif)
    (mt (startsWith_iff rfl h).2 hlet) (mt (startsWith_iff rfl h).2 hmap)]
  exact parseBinary_alike hstop 0 next h
termination_by 5 * ts.length + 2
decreasing_by all_goals first | omega | (subst_vars; simp only [List.length_cons]; omega)

theorem parseBinary_alike (hstop : L.span stop stop') (min next : Nat) {ts ts' : List Token}
    (h : List.Forall₂ (Token.Alike L) ts ts') :
    ExceptRel (ParseError.Alike L) (Parsed.Alike L (Expr.Alike L)) (parseBinary stop min next ts)
      (parseBinary stop' min next ts') := by
  rw [parseBinary, parseBinary]
  refine (parseTerm_alike hstop next h).bindParsed fun left left' n₁ ts₁ ts₁' h₁ _ hleft hts₁ => ?_
  refine (parseOperators_alike hstop min n₁ hleft hts₁).bindParsed
    fun whole whole' n₂ rest rest' _ _ hwhole hrest => ?_
  exact .ok ⟨hwhole, rfl, hrest⟩
termination_by 5 * ts.length + 1

theorem parseOperators_alike (hstop : L.span stop stop') (min next : Nat) {left left' : Expr}
    (hleft : left.Alike L left') {ts ts' : List Token} (h : List.Forall₂ (Token.Alike L) ts ts') :
    ExceptRel (ParseError.Alike L) (Parsed.Alike L (Expr.Alike L))
      (parseOperators stop min left next ts) (parseOperators stop' min left' next ts') := by
  by_cases hhead : ∃ op, StartsWith (.operator op) ts
  · obtain ⟨op, hop⟩ := hhead
    have hall := h
    obtain ⟨text, text', span, span', ts, ts', rfl, rfl, -, hts⟩ := hop.exists_of_alike rfl h
    rw [parseOperators, parseOperators]
    by_cases hlower : op.precedence < min
    · rw [if_pos hlower, if_pos hlower]
      exact .ok ⟨hleft, rfl, hall⟩
    · rw [if_neg hlower, if_neg hlower, ← startsOpenForm_eq hts]
      -- Whichever way the operand is read, the operators behind it are read in the same way.
      have hmore : ∀ {right right' : Expr} (n : Nat) {us us' : List Token},
          us.length < ts.length → right.Alike L right' → List.Forall₂ (Token.Alike L) us us' →
          ExceptRel (ParseError.Alike L) (Parsed.Alike L (Expr.Alike L))
            (parseOperators stop min (.binary ⟨n, left.span.merge right.span⟩ op left right)
              (n + 1) us)
            (parseOperators stop' min (.binary ⟨n, left'.span.merge right'.span⟩ op left' right')
              (n + 1) us') := by
        intro right right' n us us' hfewer hright hus
        have hplace : (⟨n, left.span.merge right.span⟩ : Place).Alike L
            ⟨n, left'.span.merge right'.span⟩ := ⟨rfl, L.merge hleft.span hright.span⟩
        exact parseOperators_alike hstop min (n + 1) (.binary op hplace hleft hright) hus
      split
      · refine (parseExpr_alike hstop next hts).bindParsed
          fun right right' n₁ ts₁ ts₁' h₁ _ hright hts₁ => ?_
        exact (hmore n₁ h₁ hright hts₁).bindParsed
          fun whole whole' n₂ rest rest' _ _ hwhole hrest => .ok ⟨hwhole, rfl, hrest⟩
      · refine (parseBinary_alike hstop (op.precedence + 1) next hts).bindParsed
          fun right right' n₁ ts₁ ts₁' h₁ _ hright hts₁ => ?_
        exact (hmore n₁ h₁ hright hts₁).bindParsed
          fun whole whole' n₂ rest rest' _ _ hwhole hrest => .ok ⟨hwhole, rfl, hrest⟩
  · rw [parseOperators_of_other fun op hop => hhead ⟨op, hop⟩,
      parseOperators_of_other fun op hop => hhead ⟨op, (startsWith_iff rfl h).2 hop⟩]
    exact .ok ⟨hleft, rfl, h⟩
termination_by 5 * ts.length
decreasing_by all_goals (subst_vars; simp only [List.length_cons]; omega)

theorem parseTerm_alike (hstop : L.span stop stop') (next : Nat) {ts ts' : List Token}
    (h : List.Forall₂ (Token.Alike L) ts ts') :
    ExceptRel (ParseError.Alike L) (Parsed.Alike L (Expr.Alike L)) (parseTerm stop next ts)
      (parseTerm stop' next ts') := by
  have hall := h
  cases h with
  | nil =>
      rw [parseTerm, parseTerm]
      exact .error (.unexpected hstop .expression .nil)
  | @cons t t' ts ts' ht hts =>
      have hop := ht.sign.unaryOp?_eq
      rw [parseTerm, parseTerm]
      cases hunary : t.sign.unaryOp? with
      | some op =>
          rw [hunary] at hop
          simp only [← hop]
          refine (parseTerm_alike hstop next hts).bindParsed
            fun operand operand' n₁ rest rest' _ _ hoperand hrest => ?_
          exact .ok ⟨.unary op ⟨rfl, L.merge ht.span hoperand.span⟩ hoperand, rfl, hrest⟩
      | none =>
          rw [hunary] at hop
          simp only [← hop]
          have hplace : (⟨next, t.span⟩ : Place).Alike L ⟨next, t'.span⟩ := ⟨rfl, ht.span⟩
          obtain ⟨sign, text, span⟩ := t
          obtain ⟨sign', text', span'⟩ := t'
          obtain ⟨hsign, -, -⟩ := ht
          cases hsign with
          | ident hname => exact parseCalls_alike hstop (next + 1) (.ident hplace hname) hts
          -- Apart from identifiers, signs that are alike are the same.
          | other hother =>
              cases sign with
              | ident => cases hother
              | int n => exact .ok ⟨.int n hplace, rfl, hts⟩
              | bool b => exact .ok ⟨.bool b hplace, rfl, hts⟩
              | null => exact .ok ⟨.null hplace, rfl, hts⟩
              | prim p => exact parseCalls_alike hstop (next + 1) (.prim p hplace) hts
              | openParen =>
                  refine (parseExpr_alike hstop next hts).bindParsed
                    fun inner inner' n₁ ts₁ ts₁' h₁ _ hinner hts₁ => ?_
                  refine .bindSign hstop rfl .closeParen hts₁ fun ts₂ ts₂' h₂ _ hts₂ => ?_
                  refine (parseCalls_alike hstop n₁ hinner hts₂).bindParsed
                    fun whole whole' n₂ rest rest' _ _ hwhole hrest => ?_
                  exact .ok ⟨hwhole, rfl, hrest⟩
              | _ => exact .error (.unexpected hstop .expression hall)
termination_by 5 * ts.length
decreasing_by all_goals (subst_vars; simp only [List.length_cons]; omega)

theorem parseCalls_alike (hstop : L.span stop stop') (next : Nat) {callee callee' : Expr}
    (hcallee : callee.Alike L callee') {ts ts' : List Token}
    (h : List.Forall₂ (Token.Alike L) ts ts') :
    ExceptRel (ParseError.Alike L) (Parsed.Alike L (Expr.Alike L))
      (parseCalls stop callee next ts) (parseCalls stop' callee' next ts') := by
  by_cases hhead : StartsWith .openParen ts
  · obtain ⟨text, text', span, span', ts, ts', rfl, rfl, -, hts⟩ := hhead.exists_of_alike rfl h
    rw [parseCalls, parseCalls]
    refine (parseArgs_alike hstop next hts).bindParsed
      fun args args' n₁ ts₁ ts₁' h₁ _ hargs hts₁ => ?_
    have hcall : Expr.Alike L (.call ⟨n₁, callee.span.merge args.2⟩ callee args.1)
        (.call ⟨n₁, callee'.span.merge args'.2⟩ callee' args'.1) :=
      .call ⟨rfl, L.merge hcallee.span hargs.2⟩ hcallee hargs.1
    refine (parseCalls_alike hstop (n₁ + 1) hcall hts₁).bindParsed
      fun whole whole' n₂ rest rest' _ _ hwhole hrest => ?_
    exact .ok ⟨hwhole, rfl, hrest⟩
  · rw [parseCalls_of_other hhead, parseCalls_of_other (mt (startsWith_iff rfl h).2 hhead)]
    exact .ok ⟨hcallee, rfl, h⟩
termination_by 5 * ts.length
decreasing_by all_goals (subst_vars; simp only [List.length_cons]; omega)

theorem parseArgs_alike (hstop : L.span stop stop') (next : Nat) {ts ts' : List Token}
    (h : List.Forall₂ (Token.Alike L) ts ts') :
    ExceptRel (ParseError.Alike L) (Parsed.Alike L (ArgsAlike L)) (parseArgs stop next ts)
      (parseArgs stop' next ts') := by
  by_cases hhead : StartsWith .closeParen ts
  · obtain ⟨text, text', span, span', ts, ts', rfl, rfl, hspan, hts⟩ := hhead.exists_of_alike rfl h
    rw [parseArgs, parseArgs]
    exact .ok ⟨⟨.nil, hspan⟩, rfl, hts⟩
  · rw [parseArgs_of_other hhead, parseArgs_of_other (mt (startsWith_iff rfl h).2 hhead)]
    exact parseArgList_alike hstop next h
termination_by 5 * ts.length + 4

theorem parseArgList_alike (hstop : L.span stop stop') (next : Nat) {ts ts' : List Token}
    (h : List.Forall₂ (Token.Alike L) ts ts') :
    ExceptRel (ParseError.Alike L) (Parsed.Alike L (ArgsAlike L)) (parseArgList stop next ts)
      (parseArgList stop' next ts') := by
  rw [parseArgList, parseArgList]
  refine (parseExpr_alike hstop next h).bindParsed fun arg arg' n₁ ts₁ ts₁' h₁ h₁' harg hts₁ => ?_
  have herror := ParseError.Alike.unexpected hstop .commaOrClose hts₁
  cases hts₁ with
  | nil => exact .error herror
  | @cons u u' us us' hu hus =>
      obtain ⟨sign, text, span⟩ := u
      obtain ⟨sign', text', span'⟩ := u'
      obtain ⟨hsign, -, hspan⟩ := hu
      cases hsign with
      | ident => exact .error herror
      | other =>
          cases sign with
          | comma =>
              have hfewer : us.length < ts.length := Nat.lt_of_succ_lt h₁
              refine (parseArgList_alike hstop n₁ hus).bindParsed
                fun args args' n₂ rest rest' _ _ hargs hrest => ?_
              exact .ok ⟨⟨.cons harg hargs.1, hargs.2⟩, rfl, hrest⟩
          | closeParen => exact .ok ⟨⟨.cons harg .nil, hspan⟩, rfl, hus⟩
          | _ => exact .error herror
termination_by 5 * ts.length + 3

theorem parseDefs_alike (hstop : L.span stop stop') (next : Nat) {ts ts' : List Token}
    (h : List.Forall₂ (Token.Alike L) ts ts') :
    ExceptRel (ParseError.Alike L) (Parsed.Alike L (Expr.DefsAlike L)) (parseDefs stop next ts)
      (parseDefs stop' next ts') := by
  have hall := h
  cases h with
  | nil =>
      rw [parseDefs_of_other (by simp [StartsWith]), parseDefs_of_other (by simp [StartsWith])]
      exact .ok ⟨.nil, rfl, .nil⟩
  | @cons t t' ts ts' ht hts =>
      obtain ⟨sign, text, span⟩ := t
      obtain ⟨sign', text', span'⟩ := t'
      obtain ⟨hsign, -, hspan⟩ := ht
      cases hsign with
      | ident hname =>
          rw [parseDefs, parseDefs]
          refine .bindSign hstop rfl .defineSign hts fun ts₁ ts₁' h₁ _ hts₁ => ?_
          refine (parseExpr_alike hstop next hts₁).bindParsed
            fun init init' n₁ ts₂ ts₂' h₂ _ hinit hts₂ => ?_
          refine .bindSign hstop rfl .semicolon hts₂ fun ts₃ ts₃' h₃ _ hts₃ => ?_
          refine (parseDefs_alike hstop n₁ hts₃).bindParsed
            fun defs defs' n₂ rest rest' _ _ hdefs hrest => ?_
          exact .ok ⟨.cons ⟨hname, hspan⟩ hinit hdefs, rfl, hrest⟩
      -- Definitions stop where no name comes next, on both sides.
      | other hother =>
          have hhead : ∀ {text span us} name,
              ¬StartsWith (.ident name) (⟨sign, text, span⟩ :: us) := by
            rintro text span us name ⟨t, ⟨⟩, rfl⟩
            cases hother
          rw [parseDefs_of_other hhead, parseDefs_of_other hhead]
          exact .ok ⟨.nil, rfl, hall⟩
termination_by 5 * ts.length
decreasing_by all_goals (subst_vars; simp only [List.length_cons]; omega)
end

end

/-- Token lists that are alike spell trees that are alike, or fail alike. -/
theorem Expr.ofTokens_alike {L : Likeness} {ts ts' : TokenList} (hstop : L.span ts.stop ts'.stop)
    (h : List.Forall₂ (Token.Alike L) ts.tokens ts'.tokens) :
    ExceptRel (ParseError.Alike L) (Expr.Alike L) (Expr.ofTokens ts) (Expr.ofTokens ts') := by
  refine (parseExpr_alike hstop 0 h).bindParsed fun e e' next rest rest' _ _ he hrest => ?_
  cases hrest with
  | nil => exact .ok he
  | cons ht _ => exact .error ⟨.trailingInput ht.sign, ht.span⟩

end PolicyEval
