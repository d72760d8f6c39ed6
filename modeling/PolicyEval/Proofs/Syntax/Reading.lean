import PolicyEval.Proofs.Syntax.Grammar
import PolicyEval.Proofs.Syntax.Readers

/-!
# Every conventional phrase is read as it is grouped

A phrase is read by the reader of its category whatever follows it, if what follows cannot belong to
it.  For the operands of a chain this depends on the operator that follows: it must not bind tighter
than the operators of the phrase, and it must not follow a form, which would take it.

The proof goes along the phrase, with one lemma for each kind of phrase.

* `Phrase.Ends` — what may follow a phrase.
* `Phrase.IsReadAs` — a tree that says what a phrase says, with numbers in post-order.
* `Phrase.Reads` — a phrase is read by the readers of its categories.
* `Phrase.reads` — every conventional phrase is read.
* `Expr.ofTokens_of_phrase` — tokens that are grouped by a conventional phrase spell its tree.
-/

namespace PolicyEval

variable {stop : Span}

/-! ## Where a phrase ends -/

/-- No call goes on with these tokens. -/
def EndsCall : List Token → Prop
  | ⟨.openParen, _, _⟩ :: _ => False
  | _ => True

/-- No expression goes on with these tokens. -/
def EndsExp : List Token → Prop
  | ⟨.openParen, _, _⟩ :: _ | ⟨.operator _, _, _⟩ :: _ => False
  | _ => True

/-- The phrase does not go on with these tokens.  An operator may follow if it can have the phrase
as its left operand. -/
def Phrase.Ends (c : Phrase) : List Token → Prop
  | ⟨.openParen, _, _⟩ :: _ => False
  | ⟨.operator op, _, _⟩ :: _ => c.endsInForm = false ∧ c.Binds op.precedence
  | _ => True

theorem Phrase.Ends.endsCall {c : Phrase} {rest : List Token} (h : c.Ends rest) :
    EndsCall rest := by
  unfold EndsCall
  split
  · exact h
  · trivial

/-- Nothing goes on behind a form, since the form would go on with it. -/
theorem Phrase.Ends.endsExp {c : Phrase} {rest : List Token} (h : c.Ends rest)
    (hform : c.endsInForm = true) : EndsExp rest := by
  unfold EndsExp
  split
  · exact h
  · have hnot : c.endsInForm = false := h.1
    rw [hform] at hnot
    cases hnot
  · trivial

theorem EndsExp.ends {rest : List Token} (h : EndsExp rest) (c : Phrase) : c.Ends rest := by
  unfold Phrase.Ends
  split
  · exact h
  · exact h.elim
  · trivial

theorem reading_parseCalls_of_endsCall {rest : List Token} (h : EndsCall rest) (callee : Expr)
    (next : Nat) : reading (parseCalls stop callee next rest) = some (callee, next, rest) := by
  rw [reading_parseCalls]
  split
  · exact h.elim
  · rfl

theorem reading_parseOperators_of_endsExp {rest : List Token} (h : EndsExp rest) (min : Nat)
    (left : Expr) (next : Nat) :
    reading (parseOperators stop min left next rest) = some (left, next, rest) := by
  rw [reading_parseOperators]
  split
  · exact h.elim
  · rfl

/-- Behind an operator of level `op` the next operator does not bind tighter. -/
theorem reading_parseOperators_of_ends {op : BinaryOp} {left right : Phrase} {rest : List Token}
    (h : (Phrase.binary op left right).Ends rest) (e : Expr) (next : Nat) :
    reading (parseOperators stop (op.precedence + 1) e next rest) = some (e, next, rest) := by
  rw [reading_parseOperators]
  split
  · exact if_pos (Nat.lt_succ_of_le h.2)
  · rfl

theorem Phrase.Ends.right {op : BinaryOp} {left right : Phrase} {rest : List Token}
    (h : (Phrase.binary op left right).Ends rest) (hright : right.Binds (op.precedence + 1)) :
    right.Ends rest := by
  unfold Phrase.Ends at h ⊢
  split at h
  · exact h.elim
  · next op' _ _ _ =>
      have hle : op'.precedence ≤ op.precedence := h.2
      exact ⟨h.1, hright.mono (Nat.le_succ_of_le hle)⟩
  · trivial

/-! ## The first sign -/

/-- Whether a sign is the word of a form that extends to the right. -/
def Sign.opensForm : Sign → Bool
  | .keyword .ifWord | .keyword .letWord | .keyword .mapWord => true
  | _ => false

theorem startsOpenForm_cons (t : Token) (ts : List Token) :
    startsOpenForm (t :: ts) = t.sign.opensForm := by
  obtain ⟨sign, text, span⟩ := t
  cases sign with
  | keyword k => cases k <;> rfl
  | _ => rfl

theorem reading_parseExpr_of_not_form {ts : List Token} (h : startsOpenForm ts = false)
    (next : Nat) : reading (parseExpr stop next ts) = reading (parseBinary stop 0 next ts) := by
  rw [reading_parseExpr]
  split
  · cases h
  · cases h
  · cases h
  · rfl

theorem Phrase.isForm_eq_false_of_endsInForm {c : Phrase} (h : c.endsInForm = false) :
    c.isForm = false := by
  cases c <;> first | rfl | cases h

theorem Phrase.endsInForm_of_isForm {c : Phrase} (h : c.isForm = true) : c.endsInForm = true := by
  cases c <;> first | rfl | cases h

theorem Phrase.isForm_eq_false_of_isTerm {c : Phrase} (h : c.isTerm = true) : c.isForm = false :=
  isForm_eq_false_of_endsInForm (endsInForm_eq_false_of_isTerm h)

/-- The first sign tells forms from other phrases. -/
theorem Phrase.signs_eq_cons : (c : Phrase) → c.IsConventional →
    ∃ s signs, c.signs = s :: signs ∧ s ≠ .closeParen ∧ s.opensForm = c.isForm
  | .int n, _ => ⟨_, _, rfl, by simp, rfl⟩
  | .bool b, _ => ⟨_, _, rfl, by simp, rfl⟩
  | .null, _ => ⟨_, _, rfl, by simp, rfl⟩
  | .ident name, _ => ⟨_, _, rfl, by simp, rfl⟩
  | .prim p, _ => ⟨_, _, rfl, by simp, rfl⟩
  | .group inner, _ => ⟨_, _, rfl, by simp, rfl⟩
  | .unary op operand, _ => by
    refine ⟨op.sign, operand.signs, rfl, ?_, ?_⟩ <;>
      cases op <;> simp [UnaryOp.sign, Sign.opensForm, isForm]
  | .binary op left right, h => by
    obtain ⟨s, signs, hsigns, hclose, hform⟩ := signs_eq_cons left h.2.2.2.1
    refine ⟨s, signs ++ .operator op :: right.signs, by simp [Phrase.signs, hsigns], hclose, ?_⟩
    rw [hform, isForm_eq_false_of_endsInForm h.1]
    rfl
  | .call callee args, h => by
    obtain ⟨s, signs, hsigns, hclose, hform⟩ := signs_eq_cons callee h.2.1
    refine ⟨s, _, by simp only [Phrase.signs, hsigns, List.cons_append]; rfl, hclose, ?_⟩
    rw [hform, isForm_eq_false_of_isTerm (isTerm_of_isApplication h.1)]
    rfl
  | .map params body, _ => ⟨_, _, rfl, by simp, rfl⟩
  | .cond test yes no, _ => ⟨_, _, rfl, by simp, rfl⟩
  | .letIn defs body, _ => ⟨_, _, rfl, by simp, rfl⟩

theorem startsOpenForm_append {c : Phrase} (hc : c.IsConventional) {ts : List Token}
    (hts : ts.map Token.sign = c.signs) (rest : List Token) :
    startsOpenForm (ts ++ rest) = c.isForm := by
  obtain ⟨s, signs, hsigns, -, hform⟩ := c.signs_eq_cons hc
  rw [hsigns] at hts
  obtain ⟨t, ts, rfl, rfl, -⟩ := List.map_eq_cons_iff.1 hts
  rw [List.cons_append, startsOpenForm_cons, hform]

/-! ## Trees that are read -/

/-- The tree says what the phrase says, and its nodes are numbered from `n` on. -/
def Phrase.IsReadAs (c : Phrase) (n : Nat) (e : Expr) : Prop := e.bare = c.expr ∧ e.IsNumbered n

/-- The trees say what the arguments say, and their nodes are numbered from `n` on. -/
def Phrase.AreReadAs (cs : List Phrase) (n : Nat) (es : List Expr) : Prop :=
  Expr.bareList es = exprs cs ∧ Expr.AreNumbered n es

/-- The definitions say what their phrases say, and their nodes are numbered from `n` on. -/
def Phrase.DefsAreReadAs (ds : List (Name × Phrase)) (n : Nat) (es : List (Binder × Expr)) : Prop :=
  Expr.bareDefs es = defExprs ds ∧ Expr.DefsAreNumbered n es

namespace Phrase

variable {n : Nat}

-- What a tree and its phrase say, and how the nodes are numbered, is computed node by node.
attribute [local simp] expr exprs defExprs Expr.numberFrom Expr.numberListFrom Expr.numberDefsFrom
  Expr.relocate Expr.relocateList Expr.relocateDefs Expr.size_relocate Expr.sizeList_relocate
  Expr.sizeDefs_relocate Expr.bareBinder noPlace

theorem IsReadAs.unary {c : Phrase} {e : Expr} (op : UnaryOp) (h : c.IsReadAs n e) (span : Span) :
    (Phrase.unary op c).IsReadAs n (.unary ⟨n + e.size, span⟩ op e) := by
  unfold IsReadAs Expr.IsNumbered Expr.withoutSpans Expr.bare at *
  simp [← h.1, h.2]

theorem IsReadAs.binary {c c' : Phrase} {e e' : Expr} (op : BinaryOp) (h : c.IsReadAs n e)
    (h' : c'.IsReadAs (n + e.size) e') (span : Span) :
    (Phrase.binary op c c').IsReadAs n (.binary ⟨n + e.size + e'.size, span⟩ op e e') := by
  unfold IsReadAs Expr.IsNumbered Expr.withoutSpans Expr.bare at *
  simp [← h.1, h.2, ← h'.1, h'.2]

theorem IsReadAs.call {c : Phrase} {cs : List Phrase} {e : Expr} {es : List Expr}
    (h : c.IsReadAs n e) (h' : AreReadAs cs (n + e.size) es) (span : Span) :
    (Phrase.call c cs).IsReadAs n (.call ⟨n + e.size + Expr.sizeList es, span⟩ e es) := by
  unfold AreReadAs Expr.AreNumbered Expr.bareList at h'
  unfold IsReadAs Expr.IsNumbered Expr.withoutSpans Expr.bare at *
  simp [← h.1, h.2, ← h'.1, h'.2]

theorem IsReadAs.map {c : Phrase} {e : Expr} {params : List Binder} {names : List Name}
    (hparams : params.map Binder.name = names) (h : c.IsReadAs n e) (span : Span) :
    (Phrase.map names c).IsReadAs n (.map ⟨n + e.size, span⟩ params e) := by
  subst hparams
  unfold IsReadAs Expr.IsNumbered Expr.withoutSpans Expr.bare at *
  simp [← h.1, h.2]

theorem IsReadAs.cond {c₁ c₂ c₃ : Phrase} {e₁ e₂ e₃ : Expr} (h₁ : c₁.IsReadAs n e₁)
    (h₂ : c₂.IsReadAs (n + e₁.size) e₂) (h₃ : c₃.IsReadAs (n + e₁.size + e₂.size) e₃)
    (span : Span) :
    (Phrase.cond c₁ c₂ c₃).IsReadAs n
      (.cond ⟨n + e₁.size + e₂.size + e₃.size, span⟩ e₁ e₂ e₃) := by
  unfold IsReadAs Expr.IsNumbered Expr.withoutSpans Expr.bare at *
  simp [← h₁.1, h₁.2, ← h₂.1, h₂.2, ← h₃.1, h₃.2]

theorem IsReadAs.letIn {ds : List (Name × Phrase)} {c : Phrase} {es : List (Binder × Expr)}
    {e : Expr} (h : DefsAreReadAs ds n es) (h' : c.IsReadAs (n + Expr.sizeDefs es) e)
    (span : Span) :
    (Phrase.letIn ds c).IsReadAs n (.letIn ⟨n + Expr.sizeDefs es + e.size, span⟩ es e) := by
  unfold DefsAreReadAs Expr.DefsAreNumbered Expr.bareDefs at h
  unfold IsReadAs Expr.IsNumbered Expr.withoutSpans Expr.bare at *
  simp [← h.1, h.2, ← h'.1, h'.2]

theorem AreReadAs.nil : AreReadAs [] n [] := ⟨rfl, rfl⟩

theorem AreReadAs.cons {c : Phrase} {cs : List Phrase} {e : Expr} {es : List Expr}
    (h : c.IsReadAs n e) (h' : AreReadAs cs (n + e.size) es) :
    AreReadAs (c :: cs) n (e :: es) := by
  unfold IsReadAs Expr.IsNumbered Expr.withoutSpans Expr.bare at h
  unfold AreReadAs Expr.AreNumbered Expr.bareList at *
  simp [← h.1, h.2, ← h'.1, h'.2]

theorem DefsAreReadAs.nil : DefsAreReadAs [] n [] := ⟨rfl, rfl⟩

theorem DefsAreReadAs.cons {c : Phrase} {ds : List (Name × Phrase)} {e : Expr}
    {es : List (Binder × Expr)} (b : Binder) (h : c.IsReadAs n e)
    (h' : DefsAreReadAs ds (n + e.size) es) :
    DefsAreReadAs ((b.name, c) :: ds) n ((b, e) :: es) := by
  unfold IsReadAs Expr.IsNumbered Expr.withoutSpans Expr.bare at h
  unfold DefsAreReadAs Expr.DefsAreNumbered Expr.bareDefs at *
  simp [← h.1, h.2, ← h'.1, h'.2]

/-! ## Reading a phrase -/

variable (stop) in
/-- The phrase is read as a callee, up to its argument lists. -/
def ReadsAsCallee (c : Phrase) : Prop :=
  ∀ next ts rest, ts.map Token.sign = c.signs →
    ∃ e, c.IsReadAs next e ∧
      reading (parseTerm stop next (ts ++ rest)) = reading (parseCalls stop e (next + e.size) rest)

variable (stop) in
/-- The phrase is read as a term. -/
def ReadsAsTerm (c : Phrase) : Prop :=
  ∀ next ts rest, ts.map Token.sign = c.signs → EndsCall rest →
    ∃ e, c.IsReadAs next e ∧
      reading (parseTerm stop next (ts ++ rest)) = some (e, next + e.size, rest)

variable (stop) in
/-- The phrase is read as the first operands of a chain. -/
def ReadsAsChain (c : Phrase) : Prop :=
  ∀ min, c.Binds min → ∀ next ts rest, ts.map Token.sign = c.signs → c.Ends rest →
    ∃ e, c.IsReadAs next e ∧
      reading (parseBinary stop min next (ts ++ rest)) =
        reading (parseOperators stop min e (next + e.size) rest)

variable (stop) in
/-- The phrase is read as an expression. -/
def ReadsAsExp (c : Phrase) : Prop :=
  ∀ next ts rest, ts.map Token.sign = c.signs → EndsExp rest →
    ∃ e, c.IsReadAs next e ∧
      reading (parseExpr stop next (ts ++ rest)) = some (e, next + e.size, rest)

/-- A phrase is read by the readers of all categories to which it belongs. -/
structure Reads (stop : Span) (c : Phrase) : Prop where
  callee : c.isApplication = true → c.ReadsAsCallee stop
  term : c.isTerm = true → c.ReadsAsTerm stop
  chain : c.isForm = false → c.ReadsAsChain stop
  exp : c.ReadsAsExp stop

/-- A form is read as an expression only. -/
theorem Reads.of_exp {c : Phrase} (hform : c.isForm = true) (h : c.ReadsAsExp stop) :
    Reads stop c where
  callee hcallee := by
    rw [isForm_eq_false_of_isTerm (isTerm_of_isApplication hcallee)] at hform
    cases hform
  term hterm := by
    rw [isForm_eq_false_of_isTerm hterm] at hform
    cases hform
  chain hnot := by
    rw [hform] at hnot
    cases hnot
  exp := h

/-- A chain of operands is read as an expression if no operator follows. -/
theorem ReadsAsChain.exp {c : Phrase} (h : c.ReadsAsChain stop) (hc : c.IsConventional)
    (hform : c.isForm = false) : c.ReadsAsExp stop := by
  intro next ts rest hts hrest
  have hbinds : c.Binds 0 := by
    cases c with
    | binary => exact Nat.zero_le _
    | _ => trivial
  obtain ⟨e, he, hread⟩ := h 0 hbinds next ts rest hts (hrest.ends c)
  refine ⟨e, he, ?_⟩
  rw [reading_parseExpr_of_not_form (by rw [startsOpenForm_append hc hts, hform]), hread,
    reading_parseOperators_of_endsExp hrest]

/-- A term is read as a chain of one operand. -/
theorem ReadsAsTerm.chain {c : Phrase} (h : c.ReadsAsTerm stop) : c.ReadsAsChain stop := by
  intro min _ next ts rest hts hrest
  obtain ⟨e, he, hread⟩ := h next ts rest hts hrest.endsCall
  refine ⟨e, he, ?_⟩
  rw [reading_parseBinary, hread]
  rfl

/-- A callee is read as a term if no argument list follows. -/
theorem ReadsAsCallee.term {c : Phrase} (h : c.ReadsAsCallee stop) : c.ReadsAsTerm stop := by
  intro next ts rest hts hrest
  obtain ⟨e, he, hread⟩ := h next ts rest hts
  refine ⟨e, he, ?_⟩
  rw [hread, reading_parseCalls_of_endsCall hrest]

/-- A constant or a unary operator with its operand is not a callee. -/
theorem Reads.of_term {c : Phrase} (hc : c.IsConventional) (hterm : c.isTerm = true)
    (hcallee : c.isApplication = false) (h : c.ReadsAsTerm stop) : Reads stop c where
  callee hnot := by
    rw [hcallee] at hnot
    cases hnot
  term _ := h
  chain _ := h.chain
  exp := h.chain.exp hc (isForm_eq_false_of_isTerm hterm)

theorem Reads.of_callee {c : Phrase} (hc : c.IsConventional) (hcallee : c.isApplication = true)
    (h : c.ReadsAsCallee stop) : Reads stop c where
  callee _ := h
  term _ := h.term
  chain _ := h.term.chain
  exp := h.term.chain.exp hc (isForm_eq_false_of_isTerm (isTerm_of_isApplication hcallee))

/-! ## One lemma for each kind of phrase -/

theorem readsAsTerm_int (n : Nat) : (int n).ReadsAsTerm stop := by
  intro next ts rest hts _
  obtain ⟨t, ts, rfl, hsign, hnil⟩ := List.map_eq_cons_iff.1 hts
  obtain rfl := List.map_eq_nil_iff.1 hnil
  refine ⟨.int ⟨next, t.span⟩ n, ⟨rfl, rfl⟩, ?_⟩
  rw [List.singleton_append, reading_parseTerm]
  simp only [hsign]
  rfl

theorem readsAsTerm_bool (b : Bool) : (bool b).ReadsAsTerm stop := by
  intro next ts rest hts _
  obtain ⟨t, ts, rfl, hsign, hnil⟩ := List.map_eq_cons_iff.1 hts
  obtain rfl := List.map_eq_nil_iff.1 hnil
  refine ⟨.bool ⟨next, t.span⟩ b, ⟨rfl, rfl⟩, ?_⟩
  rw [List.singleton_append, reading_parseTerm]
  simp only [hsign]
  rfl

theorem readsAsTerm_null : null.ReadsAsTerm stop := by
  intro next ts rest hts _
  obtain ⟨t, ts, rfl, hsign, hnil⟩ := List.map_eq_cons_iff.1 hts
  obtain rfl := List.map_eq_nil_iff.1 hnil
  refine ⟨.null ⟨next, t.span⟩, ⟨rfl, rfl⟩, ?_⟩
  rw [List.singleton_append, reading_parseTerm]
  simp only [hsign]
  rfl

theorem readsAsCallee_ident (name : Name) : (ident name).ReadsAsCallee stop := by
  intro next ts rest hts
  obtain ⟨t, ts, rfl, hsign, hnil⟩ := List.map_eq_cons_iff.1 hts
  obtain rfl := List.map_eq_nil_iff.1 hnil
  refine ⟨.ident ⟨next, t.span⟩ name, ⟨rfl, rfl⟩, ?_⟩
  rw [List.singleton_append, reading_parseTerm]
  simp only [hsign]
  rfl

theorem readsAsCallee_prim (p : Prim) : (prim p).ReadsAsCallee stop := by
  intro next ts rest hts
  obtain ⟨t, ts, rfl, hsign, hnil⟩ := List.map_eq_cons_iff.1 hts
  obtain rfl := List.map_eq_nil_iff.1 hnil
  refine ⟨.prim ⟨next, t.span⟩ p, ⟨rfl, rfl⟩, ?_⟩
  rw [List.singleton_append, reading_parseTerm]
  simp only [hsign]
  rfl

theorem takeSign_cons {sign : Sign} {t : Token} (h : t.sign = sign) (ts : List Token) :
    takeSign sign (t :: ts) = some ts := if_pos h

/-- The token that ends an expression. -/
theorem endsExp_cons {t : Token} {sign : Sign} (h : t.sign = sign) (rest : List Token)
    (hsign : sign ∈ [.closeParen, .comma, .semicolon, .keyword .thenWord, .keyword .elseWord,
      .keyword .inWord]) : EndsExp (t :: rest) := by
  obtain ⟨sign', text, span⟩ := t
  subst h
  simp only [List.mem_cons, List.not_mem_nil, or_false] at hsign
  rcases hsign with h | h | h | h | h | h <;> subst h <;> trivial

theorem readsAsCallee_group {inner : Phrase} (h : inner.ReadsAsExp stop) :
    (group inner).ReadsAsCallee stop := by
  intro next ts rest hts
  simp only [signs, List.map_eq_append_iff, List.map_eq_cons_iff, List.map_eq_nil_iff] at hts
  obtain ⟨_, _, rfl, ⟨t, ts, rfl, ht, hts⟩, u, _, rfl, hu, rfl⟩ := hts
  obtain ⟨e, he, hread⟩ := h next ts (u :: rest) hts (endsExp_cons hu rest (by simp))
  refine ⟨e, he, ?_⟩
  rw [List.cons_append, List.cons_append, List.append_assoc, List.singleton_append,
    reading_parseTerm]
  simp only [ht, Sign.unaryOp?, hread, Option.bind_eq_bind, Option.bind_some, takeSign_cons hu]

theorem unaryOp?_sign (op : UnaryOp) : op.sign.unaryOp? = some op := by
  cases op <;> rfl

theorem readsAsTerm_unary {operand : Phrase} (op : UnaryOp) (h : operand.ReadsAsTerm stop) :
    (unary op operand).ReadsAsTerm stop := by
  intro next ts rest hts hrest
  simp only [signs, List.map_eq_cons_iff] at hts
  obtain ⟨t, ts, rfl, ht, hts⟩ := hts
  obtain ⟨e, he, hread⟩ := h next ts rest hts hrest
  refine ⟨_, he.unary op (t.span.merge e.span), ?_⟩
  rw [List.cons_append, reading_parseTerm]
  simp only [ht, unaryOp?_sign, hread, Option.bind_eq_bind, Option.bind_some]
  rfl

theorem readsAsChain_binary {left right : Phrase} (op : BinaryOp)
    (hc : (binary op left right).IsConventional) (hleft : left.ReadsAsChain stop)
    (hright : Reads stop right) : (binary op left right).ReadsAsChain stop := by
  obtain ⟨hend, hbinds, hbinds', hl, hr⟩ := hc
  intro min hmin next ts rest hts hrest
  simp only [signs, List.map_eq_append_iff, List.map_eq_cons_iff] at hts
  obtain ⟨ts₁, _, rfl, hts₁, t, ts₂, rfl, ht, hts₂⟩ := hts
  have hfirst : left.Ends (t :: ts₂ ++ rest) := by
    obtain ⟨sign, text, span⟩ := t
    subst ht
    exact ⟨hend, hbinds⟩
  obtain ⟨e₁, he₁, hread₁⟩ := hleft min (hbinds.mono hmin) next ts₁ _ hts₁ hfirst
  -- The right operand is a form that takes all that follows, or a chain of tighter operators.
  have hsecond : ∃ e₂, right.IsReadAs (next + e₁.size) e₂ ∧
      (if startsOpenForm (ts₂ ++ rest) then reading (parseExpr stop (next + e₁.size) (ts₂ ++ rest))
        else reading (parseBinary stop (op.precedence + 1) (next + e₁.size) (ts₂ ++ rest))) =
      some (e₂, next + e₁.size + e₂.size, rest) := by
    rw [startsOpenForm_append hr hts₂]
    cases hform : right.isForm with
    | true =>
        have hends : EndsExp rest := hrest.endsExp (by rw [endsInForm, endsInForm_of_isForm hform])
        obtain ⟨e₂, he₂, hread₂⟩ := hright.exp (next + e₁.size) ts₂ rest hts₂ hends
        exact ⟨e₂, he₂, by rw [if_pos rfl, hread₂]⟩
    | false =>
        obtain ⟨e₂, he₂, hread₂⟩ :=
          hright.chain hform _ hbinds' (next + e₁.size) ts₂ rest hts₂ (hrest.right hbinds')
        refine ⟨e₂, he₂, ?_⟩
        rw [if_neg Bool.false_ne_true, hread₂, reading_parseOperators_of_ends hrest]
  obtain ⟨e₂, he₂, hread₂⟩ := hsecond
  refine ⟨_, he₁.binary op he₂ (e₁.span.merge e₂.span), ?_⟩
  rw [List.append_assoc, hread₁, reading_parseOperators]
  obtain ⟨sign, text, span⟩ := t
  subst ht
  have hlevel : ¬op.precedence < min := Nat.not_lt.2 hmin
  simp only [List.cons_append, hlevel, if_false, hread₂, Option.bind_some, Expr.size,
    ← Nat.add_assoc]

theorem readsAsExp_cond {test yes no : Phrase} (htest : test.ReadsAsExp stop)
    (hyes : yes.ReadsAsExp stop) (hno : no.ReadsAsExp stop) :
    (cond test yes no).ReadsAsExp stop := by
  intro next ts rest hts hrest
  simp only [signs, List.map_eq_append_iff, List.map_eq_cons_iff] at hts
  obtain ⟨_, _, rfl, ⟨_, _, rfl, ⟨t, ts₁, rfl, ht, hts₁⟩, u, ts₂, rfl, hu, hts₂⟩,
    v, ts₃, rfl, hv, hts₃⟩ := hts
  obtain ⟨e₁, he₁, hread₁⟩ := htest next ts₁ (u :: (ts₂ ++ v :: (ts₃ ++ rest))) hts₁
    (endsExp_cons hu _ (by simp))
  obtain ⟨e₂, he₂, hread₂⟩ := hyes (next + e₁.size) ts₂ (v :: (ts₃ ++ rest)) hts₂
    (endsExp_cons hv _ (by simp))
  obtain ⟨e₃, he₃, hread₃⟩ := hno (next + e₁.size + e₂.size) ts₃ rest hts₃ hrest
  refine ⟨_, he₁.cond he₂ he₃ (t.span.merge e₃.span), ?_⟩
  obtain ⟨sign, text, span⟩ := t
  subst ht
  have hsplit : ⟨.keyword .ifWord, text, span⟩ :: ts₁ ++ u :: ts₂ ++ v :: ts₃ ++ rest =
      ⟨.keyword .ifWord, text, span⟩ :: (ts₁ ++ u :: (ts₂ ++ v :: (ts₃ ++ rest))) := by simp
  rw [hsplit, reading_parseExpr]
  simp only [hread₁, hread₂, hread₃, Option.bind_eq_bind, Option.bind_some, takeSign_cons hu,
    takeSign_cons hv, Expr.size, ← Nat.add_assoc]
  rfl

variable (stop) in
/-- The parameters of a function are read with their names. -/
theorem parseParamList_eq : (names : List Name) → names ≠ [] → ∀ ts t rest,
    ts.map Token.sign = (names.map Sign.ident).intersperse .comma → t.sign ≠ .comma →
      ∃ params, params.map Binder.name = names ∧
        paramReading (parseParamList stop (ts ++ t :: rest)) = some (params, t :: rest)
  | [], hne, _, _, _, _, _ => absurd rfl hne
  | [name], _, ts, u, rest, hts, hu => by
    obtain ⟨t, ts, rfl, ht, hnil⟩ := List.map_eq_cons_iff.1 hts
    obtain rfl := List.map_eq_nil_iff.1 hnil
    obtain ⟨sign, text, span⟩ := t
    subst ht
    refine ⟨[⟨name, span⟩], rfl, ?_⟩
    rw [List.singleton_append, paramReading_parseParamList]
    obtain ⟨sign, text', span'⟩ := u
    cases sign with
    | comma => exact absurd rfl hu
    | _ => rfl
  | name :: name' :: names, _, ts, u, rest, hts, hu => by
    simp only [List.map_cons, List.intersperse_cons_cons, List.map_eq_cons_iff] at hts
    obtain ⟨t, _, rfl, ht, c, ts, rfl, hc, hts⟩ := hts
    obtain ⟨params, hparams, hread⟩ :=
      parseParamList_eq (name' :: names) (List.cons_ne_nil _ _) ts u rest hts hu
    obtain ⟨sign, text, span⟩ := t
    obtain ⟨sign', text', span'⟩ := c
    subst ht hc
    refine ⟨⟨name, span⟩ :: params, by rw [List.map_cons, hparams], ?_⟩
    rw [List.cons_append, List.cons_append, paramReading_parseParamList]
    simp only [hread, Option.bind_eq_bind, Option.bind_some]
    rfl

variable (stop) in
/-- So are they up to the word that ends them. -/
theorem parseParams_eq (names : List Name) {ts : List Token} {t : Token} (rest : List Token)
    (hts : ts.map Token.sign = (names.map Sign.ident).intersperse .comma)
    (ht : t.sign = .keyword .toWord) :
    ∃ params, params.map Binder.name = names ∧
      paramReading (parseParams stop (ts ++ t :: rest)) = some (params, rest) := by
  cases names with
  | nil =>
      obtain rfl := List.map_eq_nil_iff.1 hts
      obtain ⟨sign, text, span⟩ := t
      subst ht
      exact ⟨[], rfl, rfl⟩
  | cons name names =>
      obtain ⟨params, hparams, hread⟩ := parseParamList_eq stop (name :: names)
        (List.cons_ne_nil _ _) ts t rest hts (by rw [ht]; simp)
      refine ⟨params, hparams, ?_⟩
      have hfirst : ∀ text span tail, ts ++ t :: rest ≠ ⟨.keyword .toWord, text, span⟩ :: tail := by
        intro text span tail heq
        cases names <;>
          · obtain ⟨u, us, rfl, hu, -⟩ := List.map_eq_cons_iff.1 hts
            obtain ⟨rfl, -⟩ := List.cons_eq_cons.1 heq
            cases hu
      rw [paramReading_parseParams]
      split
      · next heq => exact absurd heq (hfirst _ _ _)
      · simp only [hread, Option.bind_eq_bind, Option.bind_some, takeSign_cons ht]
        rfl

theorem readsAsExp_map {body : Phrase} (params : List Name) (hbody : body.ReadsAsExp stop) :
    (map params body).ReadsAsExp stop := by
  intro next ts rest hts hrest
  simp only [signs, List.map_eq_append_iff, List.map_eq_cons_iff] at hts
  obtain ⟨_, _, rfl, ⟨t, ts₁, rfl, ht, hts₁⟩, u, ts₂, rfl, hu, hts₂⟩ := hts
  obtain ⟨binders, hbinders, hread₁⟩ :=
    parseParams_eq stop params (ts₂ ++ rest) hts₁ hu
  obtain ⟨e, he, hread₂⟩ := hbody next ts₂ rest hts₂ hrest
  refine ⟨_, he.map hbinders (t.span.merge e.span), ?_⟩
  obtain ⟨sign, text, span⟩ := t
  subst ht
  have hsplit : ⟨.keyword .mapWord, text, span⟩ :: ts₁ ++ u :: ts₂ ++ rest =
      ⟨.keyword .mapWord, text, span⟩ :: (ts₁ ++ u :: (ts₂ ++ rest)) := by simp
  rw [hsplit, reading_parseExpr]
  simp only [hread₁, hread₂, Option.bind_eq_bind, Option.bind_some, Expr.size, ← Nat.add_assoc]
  rfl

/-! ## Arguments and definitions -/

variable (stop) in
/-- Arguments are read up to the parenthesis behind them. -/
def ReadAsArgs (cs : List Phrase) : Prop :=
  ∀ next ts t rest, ts.map Token.sign = argSigns cs → t.sign = .closeParen →
    ∃ es, AreReadAs cs next es ∧
      reading (parseArgs stop next (ts ++ t :: rest)) =
        some ((es, t.span), next + Expr.sizeList es, rest)

variable (stop) in
/-- One or more arguments are read up to the parenthesis behind them. -/
def ReadAsArgList (cs : List Phrase) : Prop :=
  ∀ next ts t rest, ts.map Token.sign = argSigns cs → t.sign = .closeParen →
    ∃ es, AreReadAs cs next es ∧
      reading (parseArgList stop next (ts ++ t :: rest)) =
        some ((es, t.span), next + Expr.sizeList es, rest)

theorem readAsArgs_nil : ReadAsArgs stop [] := by
  intro next ts t rest hts ht
  obtain rfl := List.map_eq_nil_iff.1 hts
  obtain ⟨sign, text, span⟩ := t
  subst ht
  refine ⟨[], .nil, ?_⟩
  rw [List.nil_append, reading_parseArgs]
  rfl

theorem ReadAsArgList.args {c : Phrase} {cs : List Phrase} (hc : c.IsConventional)
    (h : ReadAsArgList stop (c :: cs)) : ReadAsArgs stop (c :: cs) := by
  intro next ts t rest hts ht
  obtain ⟨es, hes, hread⟩ := h next ts t rest hts ht
  refine ⟨es, hes, ?_⟩
  rw [reading_parseArgs]
  split
  · next close rest' heq =>
      exfalso
      obtain ⟨s, signs, hsigns, hclose, -⟩ := c.signs_eq_cons hc
      cases cs <;>
        · simp only [argSigns, hsigns, List.cons_append] at hts
          obtain ⟨u, us, rfl, hu, -⟩ := List.map_eq_cons_iff.1 hts
          obtain ⟨rfl, -⟩ := List.cons_eq_cons.1 heq
          exact hclose hu.symm
  · exact hread

theorem readAsArgList_one {c : Phrase} (h : c.ReadsAsExp stop) : ReadAsArgList stop [c] := by
  intro next ts t rest hts ht
  obtain ⟨e, he, hread⟩ := h next ts (t :: rest) hts (endsExp_cons ht _ (by simp))
  refine ⟨[e], .cons he .nil, ?_⟩
  rw [reading_parseArgList, hread]
  obtain ⟨sign, text, span⟩ := t
  subst ht
  rfl

theorem readAsArgList_cons {c c' : Phrase} {cs : List Phrase} (h : c.ReadsAsExp stop)
    (hcs : ReadAsArgList stop (c' :: cs)) : ReadAsArgList stop (c :: c' :: cs) := by
  intro next ts t rest hts ht
  simp only [argSigns, List.map_eq_append_iff, List.map_eq_cons_iff] at hts
  obtain ⟨ts₁, _, rfl, hts₁, u, ts₂, rfl, hu, hts₂⟩ := hts
  obtain ⟨e, he, hread₁⟩ := h next ts₁ (u :: (ts₂ ++ t :: rest)) hts₁
    (endsExp_cons hu _ (by simp))
  obtain ⟨es, hes, hread₂⟩ := hcs (next + e.size) ts₂ t rest hts₂ ht
  refine ⟨e :: es, .cons he hes, ?_⟩
  have hsplit : ts₁ ++ u :: ts₂ ++ t :: rest = ts₁ ++ u :: (ts₂ ++ t :: rest) := by simp
  rw [hsplit, reading_parseArgList, hread₁]
  obtain ⟨sign, text, span⟩ := u
  subst hu
  simp only [hread₂, Option.bind_eq_bind, Option.bind_some, Expr.sizeList, ← Nat.add_assoc]
  rfl

theorem readsAsCallee_call {callee : Phrase} {args : List Phrase}
    (hcallee : callee.ReadsAsCallee stop) (hargs : ReadAsArgs stop args) :
    (call callee args).ReadsAsCallee stop := by
  intro next ts rest hts
  simp only [signs, List.map_eq_append_iff, List.map_eq_cons_iff, List.map_eq_nil_iff] at hts
  obtain ⟨_, _, rfl, ⟨ts₁, _, rfl, hts₁, t, ts₂, rfl, ht, hts₂⟩, u, _, rfl, hu, rfl⟩ := hts
  obtain ⟨e, he, hread₁⟩ := hcallee next ts₁ (t :: (ts₂ ++ u :: rest)) hts₁
  obtain ⟨es, hes, hread₂⟩ := hargs (next + e.size) ts₂ u rest hts₂ hu
  refine ⟨_, he.call hes (e.span.merge u.span), ?_⟩
  have hsplit : ts₁ ++ t :: ts₂ ++ [u] ++ rest = ts₁ ++ t :: (ts₂ ++ u :: rest) := by simp
  rw [hsplit, hread₁, reading_parseCalls]
  obtain ⟨sign, text, span⟩ := t
  subst ht
  simp only [hread₂, Option.bind_eq_bind, Option.bind_some, Expr.size, ← Nat.add_assoc]

variable (stop) in
/-- Definitions are read up to a token that is not a name. -/
def ReadAsDefs (ds : List (Name × Phrase)) : Prop :=
  ∀ next ts t rest, ts.map Token.sign = defSigns ds → t.sign = .keyword .inWord →
    ∃ es, DefsAreReadAs ds next es ∧
      reading (parseDefs stop next (ts ++ t :: rest)) =
        some (es, next + Expr.sizeDefs es, t :: rest)

theorem readAsDefs_nil : ReadAsDefs stop [] := by
  intro next ts t rest hts ht
  obtain rfl := List.map_eq_nil_iff.1 hts
  obtain ⟨sign, text, span⟩ := t
  subst ht
  refine ⟨[], .nil, ?_⟩
  rw [List.nil_append, reading_parseDefs]
  rfl

theorem readAsDefs_cons {c : Phrase} {ds : List (Name × Phrase)} (name : Name)
    (h : c.ReadsAsExp stop) (hds : ReadAsDefs stop ds) : ReadAsDefs stop ((name, c) :: ds) := by
  intro next ts t rest hts ht
  simp only [defSigns, List.map_eq_append_iff, List.map_eq_cons_iff] at hts
  obtain ⟨_, _, rfl, ⟨x, _, rfl, hx, u, ts₁, rfl, hu, hts₁⟩, v, ts₂, rfl, hv, hts₂⟩ := hts
  obtain ⟨e, he, hread₁⟩ := h next ts₁ (v :: (ts₂ ++ t :: rest)) hts₁
    (endsExp_cons hv _ (by simp))
  obtain ⟨es, hes, hread₂⟩ := hds (next + e.size) ts₂ t rest hts₂ ht
  refine ⟨_, .cons ⟨name, x.span⟩ he hes, ?_⟩
  obtain ⟨sign, text, span⟩ := x
  subst hx
  have hsplit : ⟨.ident name, text, span⟩ :: u :: ts₁ ++ v :: ts₂ ++ t :: rest =
      ⟨.ident name, text, span⟩ :: u :: (ts₁ ++ v :: (ts₂ ++ t :: rest)) := by simp
  rw [hsplit, reading_parseDefs]
  simp only [hread₁, hread₂, Option.bind_eq_bind, Option.bind_some, takeSign_cons hu,
    takeSign_cons hv, Expr.sizeDefs, ← Nat.add_assoc]
  rfl

theorem readsAsExp_letIn {defs : List (Name × Phrase)} {body : Phrase} (hne : defs ≠ [])
    (hdefs : ReadAsDefs stop defs) (hbody : body.ReadsAsExp stop) :
    (letIn defs body).ReadsAsExp stop := by
  intro next ts rest hts hrest
  simp only [signs, List.map_eq_append_iff, List.map_eq_cons_iff] at hts
  obtain ⟨_, _, rfl, ⟨t, ts₁, rfl, ht, hts₁⟩, u, ts₂, rfl, hu, hts₂⟩ := hts
  obtain ⟨es, hes, hread₁⟩ := hdefs next ts₁ u (ts₂ ++ rest) hts₁ hu
  obtain ⟨e, he, hread₂⟩ := hbody (next + Expr.sizeDefs es) ts₂ rest hts₂ hrest
  have hsome : es.isEmpty = false := by
    cases es with
    | cons => rfl
    | nil =>
        obtain ⟨d, ds, rfl⟩ := List.exists_cons_of_ne_nil hne
        cases hes.1
  refine ⟨_, IsReadAs.letIn hes he (t.span.merge e.span), ?_⟩
  obtain ⟨sign, text, span⟩ := t
  subst ht
  have hsplit : ⟨.keyword .letWord, text, span⟩ :: ts₁ ++ u :: ts₂ ++ rest =
      ⟨.keyword .letWord, text, span⟩ :: (ts₁ ++ u :: (ts₂ ++ rest)) := by simp
  rw [hsplit, reading_parseExpr]
  simp only [hread₁, hread₂, Option.bind_eq_bind, Option.bind_some, takeSign_cons hu, hsome,
    Expr.size, ← Nat.add_assoc]
  rfl

/-! ## Every conventional phrase is read -/

mutual
/-- A conventional phrase is read as it is grouped. -/
theorem reads : (c : Phrase) → c.IsConventional → Reads stop c
  | .int n, h => .of_term h rfl rfl (readsAsTerm_int n)
  | .bool b, h => .of_term h rfl rfl (readsAsTerm_bool b)
  | .null, h => .of_term h rfl rfl readsAsTerm_null
  | .ident name, h => .of_callee h rfl (readsAsCallee_ident name)
  | .prim p, h => .of_callee h rfl (readsAsCallee_prim p)
  | .group inner, h => .of_callee h rfl (readsAsCallee_group (reads inner h).exp)
  | .unary op operand, h =>
    .of_term h rfl rfl (readsAsTerm_unary op ((reads operand h.2).term h.1))
  | .binary op left right, h => by
    have hleft := (reads left h.2.2.2.1).chain (isForm_eq_false_of_endsInForm h.1)
    have hchain := readsAsChain_binary op h hleft (reads right h.2.2.2.2)
    exact ⟨nofun, nofun, fun _ => hchain, hchain.exp h rfl⟩
  | .call callee args, h =>
    .of_callee h rfl (readsAsCallee_call ((reads callee h.2.1).callee h.1) (readsArgs args h.2.2))
  | .map params body, h => .of_exp rfl (readsAsExp_map params (reads body h).exp)
  | .cond test yes no, h =>
    .of_exp rfl (readsAsExp_cond (reads test h.1).exp (reads yes h.2.1).exp (reads no h.2.2).exp)
  | .letIn defs body, h =>
    .of_exp rfl (readsAsExp_letIn h.1 (readsDefs defs h.2.1) (reads body h.2.2).exp)

theorem readsArgs : (cs : List Phrase) → AreConventional cs → ReadAsArgs stop cs
  | [], _ => readAsArgs_nil
  | c :: cs, h => (readsArgList c cs (reads c h.1).exp h.2).args h.1

theorem readsArgList (c : Phrase) : (cs : List Phrase) → c.ReadsAsExp stop → AreConventional cs →
    ReadAsArgList stop (c :: cs)
  | [], hc, _ => readAsArgList_one hc
  | c' :: cs, hc, h => readAsArgList_cons hc (readsArgList c' cs (reads c' h.1).exp h.2)

theorem readsDefs : (ds : List (Name × Phrase)) → DefsAreConventional ds → ReadAsDefs stop ds
  | [], _ => readAsDefs_nil
  | (name, c) :: ds, h => readAsDefs_cons name (reads c h.1).exp (readsDefs ds h.2)
end

end Phrase

/-- Tokens that a conventional phrase groups spell its tree, with numbers in post-order. -/
theorem Expr.ofTokens_of_phrase {c : Phrase} (hc : c.IsConventional) {ts : TokenList}
    (hts : ts.tokens.map Token.sign = c.signs) :
    ∃ e, Expr.ofTokens ts = .ok e ∧ e.bare = c.expr ∧ e.IsNumbered 0 := by
  obtain ⟨e, ⟨hbare, hnumbered⟩, hread⟩ := (Phrase.reads c hc).exp 0 ts.tokens [] hts trivial
  refine ⟨e, ?_, hbare, hnumbered⟩
  rw [List.append_nil] at hread
  obtain ⟨hfewer, hparse⟩ := exists_of_reading_eq_some hread
  rw [Expr.ofTokens, hparse]
  rfl

end PolicyEval
