import PolicyEval.Proofs.Syntax.Reading

/-!
# The readers accept exactly the grammar

What a reader takes off the tokens belongs to the category of the reader.  Conversely an expression
of the grammar has a conventional phrase, and a conventional phrase is read as it is grouped.  So the
readers accept the expressions of the grammar and nothing else, and they group them by the rules.

* `Takes` — the signs that a reader takes off belong to a category.
* `taken` — every reader takes off what belongs to its category.
* `ofTokens_accepts_grammar` — tokens are accepted if and only if they form an expression, and the
  tree that they spell is the one that conventional phrases stand for.
-/

namespace PolicyEval

/-- The signs in front of `rest` belong to the category. -/
def Takes (category : Category) (ts rest : List Token) : Prop :=
  ∃ signs, ts.map Token.sign = signs ++ rest.map Token.sign ∧ Derives category signs

/-- The signs in front of `rest` extend whatever belongs to the category. -/
def Prolongs (category : Category) (ts rest : List Token) : Prop :=
  ∃ signs, ts.map Token.sign = signs ++ rest.map Token.sign ∧
    ∀ before, Derives category before → Derives category (before ++ signs)

section

variable {stop : Span} {category : Category} {ts rest : List Token}

theorem Prolongs.refl (category : Category) (ts : List Token) : Prolongs category ts ts :=
  ⟨[], rfl, fun before h => by rwa [List.append_nil]⟩

theorem Takes.extend {ts₁ : List Token} (h : Takes category ts ts₁)
    (h' : Prolongs category ts₁ rest) : Takes category ts rest := by
  obtain ⟨signs, hts, hsigns⟩ := h
  obtain ⟨more, hts₁, hmore⟩ := h'
  exact ⟨signs ++ more, by rw [hts, hts₁, List.append_assoc], hmore signs hsigns⟩

theorem takeSign_eq_some {sign : Sign} (h : takeSign sign ts = some rest) :
    ts.map Token.sign = sign :: rest.map Token.sign ∧ ts.length = rest.length + 1 := by
  cases ts with
  | nil => cases h
  | cons t ts =>
      simp only [takeSign] at h
      split at h
      · next hsign =>
          cases h
          exact ⟨by rw [List.map_cons, hsign], rfl⟩
      · cases h

theorem eq_sign_of_unaryOp? {sign : Sign} {op : UnaryOp} (h : sign.unaryOp? = some op) :
    sign = op.sign := by
  unfold Sign.unaryOp? at h
  split at h <;> cases h <;> rfl

theorem length_lt_of_reading {α : Type} {n next : Nat} {x : Except ParseError (Parsed α n)} {a : α}
    (h : reading x = some (a, next, rest)) : rest.length < n :=
  (exists_of_reading_eq_some h).1

theorem length_lt_of_paramReading {α : Type} {n : Nat}
    {x : Except ParseError (α × { rest : List Token // rest.length < n })} {a : α}
    (h : paramReading x = some (a, rest)) : rest.length < n := by
  cases x with
  | error e => cases h
  | ok p =>
      cases h
      exact p.2.2

/-! ## Parameters -/

theorem parseParamList_takes {params : List Binder}
    (h : paramReading (parseParamList stop ts) = some (params, rest)) :
    ∃ (name : Name) (names : List Name), ts.map Token.sign =
      ((name :: names).map .ident).intersperse .comma ++ rest.map Token.sign := by
  induction ts using parseParamList.induct generalizing params with
  | case1 name _ _ _ _ ts ih =>
      rw [paramReading_parseParamList] at h
      simp only [Option.bind_eq_bind, Option.bind_eq_some_iff, Prod.exists] at h
      obtain ⟨params', rest', hread, heq⟩ := h
      cases heq
      obtain ⟨name', names, hnames⟩ := ih hread
      exact ⟨name, name' :: names, by simpa using hnames⟩
  | case2 name _ _ ts hcomma =>
      rw [paramReading_parseParamList] at h
      split at h
      · next heq =>
          cases heq
          exact absurd rfl (hcomma _ _ _)
      · next heq =>
          cases heq
          cases h
          exact ⟨name, [], rfl⟩
      · cases h
  | case3 ts hone hmore =>
      rw [parseParamList] at h
      · cases h
      · exact hone
      · exact hmore

theorem parseParams_takes {params : List Binder}
    (h : paramReading (parseParams stop ts) = some (params, rest)) :
    ∃ names : List Name, ts.map Token.sign =
      (names.map .ident).intersperse .comma ++ .keyword .toWord :: rest.map Token.sign := by
  rw [paramReading_parseParams] at h
  split at h
  · cases h
    exact ⟨[], rfl⟩
  · simp only [Option.bind_eq_bind, Option.bind_eq_some_iff, Prod.exists] at h
    obtain ⟨params', ts₁, hparams, ts₂, hto, heq⟩ := h
    cases heq
    obtain ⟨name, names, hnames⟩ := parseParamList_takes hparams
    exact ⟨name :: names, by rw [hnames, (takeSign_eq_some hto).1]⟩

end

/-! ## What each reader takes off -/

/-- The readers of arguments take off the parenthesis behind them. -/
def TakesArgs (ts rest : List Token) : Prop :=
  ∃ signs, ts.map Token.sign = signs ++ .closeParen :: rest.map Token.sign ∧
    Derives .arguments signs

/-- The readers take off what belongs to their categories, from fewer than `n` tokens. -/
structure Taken (stop : Span) (n : Nat) : Prop where
  exp : ∀ {next ts e next' rest}, ts.length < n →
    reading (parseExpr stop next ts) = some (e, next', rest) → Takes .exp ts rest
  binary : ∀ {min next ts e next' rest}, ts.length < n →
    reading (parseBinary stop min next ts) = some (e, next', rest) → Takes .binary ts rest
  operators : ∀ {min left next ts e next' rest}, ts.length < n →
    reading (parseOperators stop min left next ts) = some (e, next', rest) →
      Prolongs .binary ts rest
  term : ∀ {next ts e next' rest}, ts.length < n →
    reading (parseTerm stop next ts) = some (e, next', rest) → Takes .term ts rest
  calls : ∀ {callee next ts e next' rest}, ts.length < n →
    reading (parseCalls stop callee next ts) = some (e, next', rest) →
      Prolongs .application ts rest
  args : ∀ {next ts es next' rest}, ts.length < n →
    reading (parseArgList stop next ts) = some (es, next', rest) → TakesArgs ts rest
  defs : ∀ {next ts ds next' rest}, ts.length < n →
    reading (parseDefs stop next ts) = some (ds, next', rest) →
      ∃ signs, ts.map Token.sign = signs ++ rest.map Token.sign ∧
        (ds = [] → signs = []) ∧ (ds ≠ [] → Derives .definitions signs)

namespace Taken

variable {stop : Span} {n next next' : Nat} {ts rest : List Token} {e : Expr}

theorem operators_of_le (h : Taken stop n) (hlen : ts.length ≤ n) {min : Nat} {left : Expr}
    (hread : reading (parseOperators stop min left next ts) = some (e, next', rest)) :
    Prolongs .binary ts rest := by
  rw [reading_parseOperators] at hread
  split at hread
  · next op text span ts =>
      have hlt : ts.length < n := hlen
      split at hread
      · cases hread
        exact .refl _ _
      · simp only [Option.bind_eq_some_iff, Prod.exists] at hread
        obtain ⟨right, n₁, ts₁, hright, hmore⟩ := hread
        -- The operand is a form or another chain; either way it extends a chain.
        have hoperand : ts₁.length < ts.length ∧ ∃ signs,
            ts.map Token.sign = signs ++ ts₁.map Token.sign ∧
              ∀ before, Derives .binary before →
                Derives .binary (before ++ .operator op :: signs) := by
          split at hright
          · obtain ⟨signs, hsigns, hexp⟩ := h.exp hlt hright
            refine ⟨length_lt_of_reading hright, signs, hsigns, fun before hbefore => ?_⟩
            cases hexp with
            | formExp hform => exact .operation op hbefore (.formOperand hform)
            | binaryExp hbinary => exact hbefore.append op hbinary
          · obtain ⟨signs, hsigns, hbinary⟩ := h.binary hlt hright
            exact ⟨length_lt_of_reading hright, signs, hsigns,
              fun before hbefore => hbefore.append op hbinary⟩
        obtain ⟨hlt₁, s₁, hs₁, hfirst⟩ := hoperand
        obtain ⟨s₂, hs₂, hrest⟩ := h.operators (by omega) hmore
        refine ⟨.operator op :: s₁ ++ s₂, by simp [hs₁, hs₂], fun before hbefore => ?_⟩
        have hwhole := hrest _ (hfirst before hbefore)
        simpa only [List.append_assoc, List.cons_append] using hwhole
  · cases hread
    exact .refl _ _

theorem calls_of_le (h : Taken stop n) (hlen : ts.length ≤ n) {callee : Expr}
    (hread : reading (parseCalls stop callee next ts) = some (e, next', rest)) :
    Prolongs .application ts rest := by
  rw [reading_parseCalls] at hread
  split at hread
  · next text span ts =>
      have hlt : ts.length < n := hlen
      simp only [Option.bind_eq_bind, Option.bind_eq_some_iff, Prod.exists] at hread
      obtain ⟨args, close, n₁, ts₁, hargs, hmore⟩ := hread
      have hlt₁ := length_lt_of_reading hargs
      obtain ⟨more, hts₁, hrest⟩ := h.calls (by omega) hmore
      rw [reading_parseArgs] at hargs
      split at hargs
      · cases hargs
        refine ⟨[.openParen, .closeParen] ++ more, by simp [hts₁], fun before hbefore => ?_⟩
        rw [← List.append_assoc]
        exact hrest _ (.callNone hbefore)
      · obtain ⟨signs, hsigns, hsome⟩ := h.args hlt hargs
        refine ⟨.openParen :: signs ++ [.closeParen] ++ more, by simp [hsigns, hts₁],
          fun before hbefore => ?_⟩
        have hwhole := hrest _ (.call hbefore hsome)
        simpa only [List.append_assoc, List.cons_append] using hwhole
  · cases hread
    exact .refl _ _

theorem term_of_le (h : Taken stop n) (hlen : ts.length ≤ n)
    (hread : reading (parseTerm stop next ts) = some (e, next', rest)) : Takes .term ts rest := by
  rw [reading_parseTerm] at hread
  cases ts with
  | nil => cases hread
  | cons t ts =>
      have hlt : ts.length < n := hlen
      dsimp only at hread
      -- The reader tells terms apart by their first signs, as the grammar does.
      split at hread
      · next op hop =>
          simp only [Option.bind_eq_bind, Option.bind_eq_some_iff, Prod.exists] at hread
          obtain ⟨operand, n₁, ts₁, hoperand, heq⟩ := hread
          cases heq
          obtain ⟨signs, hsigns, hterm⟩ := h.term hlt hoperand
          exact ⟨op.sign :: signs, by simp [hsigns, eq_sign_of_unaryOp? hop], .unary op hterm⟩
      · split at hread
        · next hsign =>
            cases hread
            exact ⟨_, by rw [List.map_cons, hsign]; rfl, .int _⟩
        · next hsign =>
            cases hread
            exact ⟨_, by rw [List.map_cons, hsign]; rfl, .bool _⟩
        · next hsign =>
            cases hread
            exact ⟨_, by rw [List.map_cons, hsign]; rfl, .null⟩
        · next p hsign =>
            obtain ⟨more, hmore, happlication⟩ := h.calls hlt hread
            exact ⟨.prim p :: more, by rw [List.map_cons, hsign, hmore]; rfl,
              .application (happlication _ (.callee (.prim p)))⟩
        · next name hsign =>
            obtain ⟨more, hmore, happlication⟩ := h.calls hlt hread
            exact ⟨.ident name :: more, by rw [List.map_cons, hsign, hmore]; rfl,
              .application (happlication _ (.callee (.ident name)))⟩
        · next hsign =>
            simp only [Option.bind_eq_bind, Option.bind_eq_some_iff, Prod.exists] at hread
            obtain ⟨inner, n₁, ts₁, hinner, ts₂, hclose, hcalls⟩ := hread
            have hlt₁ := length_lt_of_reading hinner
            obtain ⟨hts₁, hlen₁⟩ := takeSign_eq_some hclose
            obtain ⟨signs, hsigns, hexp⟩ := h.exp hlt hinner
            obtain ⟨more, hmore, happlication⟩ := h.calls (by omega) hcalls
            refine ⟨.openParen :: signs ++ [.closeParen] ++ more, ?_,
              .application (happlication _ (.callee (.group hexp)))⟩
            simp [hsign, hsigns, hts₁, hmore]
        · cases hread

theorem binary_of_le (h : Taken stop n) (hlen : ts.length ≤ n) {min : Nat}
    (hread : reading (parseBinary stop min next ts) = some (e, next', rest)) :
    Takes .binary ts rest := by
  rw [reading_parseBinary] at hread
  simp only [Option.bind_eq_some_iff, Prod.exists] at hread
  obtain ⟨left, n₁, ts₁, hleft, hmore⟩ := hread
  have hlt₁ := length_lt_of_reading hleft
  obtain ⟨signs, hsigns, hterm⟩ := h.term_of_le hlen hleft
  have hfirst : Takes .binary ts ts₁ := ⟨signs, hsigns, .firstTerm hterm⟩
  exact hfirst.extend (h.operators (by omega) hmore)

theorem defs_of_le (h : Taken stop n) (hlen : ts.length ≤ n) {ds : List (Binder × Expr)}
    (hread : reading (parseDefs stop next ts) = some (ds, next', rest)) :
    ∃ signs, ts.map Token.sign = signs ++ rest.map Token.sign ∧
      (ds = [] → signs = []) ∧ (ds ≠ [] → Derives .definitions signs) := by
  rw [reading_parseDefs] at hread
  split at hread
  · next name text span ts =>
      have hlt : ts.length < n := hlen
      simp only [Option.bind_eq_bind, Option.bind_eq_some_iff, Prod.exists] at hread
      obtain ⟨ts₁, hdefine, init, n₁, ts₂, hinit, ts₃, hsemicolon, ds, n₂, ts₄, hds, heq⟩ := hread
      cases heq
      have hlt₂ := length_lt_of_reading hinit
      obtain ⟨hts, hlen₁⟩ := takeSign_eq_some hdefine
      obtain ⟨hts₂, hlen₃⟩ := takeSign_eq_some hsemicolon
      obtain ⟨s₁, hs₁, hexp⟩ := h.exp (by omega) hinit
      obtain ⟨s₂, hs₂, hnone, hsome⟩ := h.defs (by omega) hds
      refine ⟨.ident name :: .define :: s₁ ++ .semicolon :: s₂, by simp [hts, hs₁, hts₂, hs₂],
        fun h => absurd h (List.cons_ne_nil _ _), fun _ => ?_⟩
      by_cases hempty : ds = []
      · rw [hnone hempty]
        exact .definition name hexp
      · exact .moreDefinitions name hexp (hsome hempty)
  · cases hread
    exact ⟨[], rfl, fun _ => rfl, fun hne => absurd rfl hne⟩

theorem exp_of_le (h : Taken stop n) (hlen : ts.length ≤ n)
    (hread : reading (parseExpr stop next ts) = some (e, next', rest)) : Takes .exp ts rest := by
  rw [reading_parseExpr] at hread
  -- The three forms are told apart by their first words.
  split at hread
  · next text span ts =>
      have hlt : ts.length < n := hlen
      simp only [Option.bind_eq_bind, Option.bind_eq_some_iff, Prod.exists] at hread
      obtain ⟨test, n₁, ts₁, h₁, ts₂, hthen, yes, n₂, ts₃, h₂, ts₄, helse, no, n₃, ts₅, h₃, heq⟩ :=
        hread
      cases heq
      have hlt₁ := length_lt_of_reading h₁
      have hlt₃ := length_lt_of_reading h₂
      obtain ⟨hts₁, hlen₁⟩ := takeSign_eq_some hthen
      obtain ⟨hts₃, hlen₃⟩ := takeSign_eq_some helse
      obtain ⟨s₁, hs₁, htest⟩ := h.exp hlt h₁
      obtain ⟨s₂, hs₂, hyes⟩ := h.exp (by omega) h₂
      obtain ⟨s₃, hs₃, hno⟩ := h.exp (by omega) h₃
      exact ⟨_, by simp [hs₁, hts₁, hs₂, hts₃, hs₃], .formExp (.cond htest hyes hno)⟩
  · next text span ts =>
      have hlt : ts.length < n := hlen
      simp only [Option.bind_eq_bind, Option.bind_eq_some_iff, Prod.exists] at hread
      obtain ⟨defs, n₁, ts₁, h₁, hread⟩ := hread
      split at hread
      · cases hread
      · next hempty =>
          simp only [Option.bind_eq_some_iff, Prod.exists] at hread
          obtain ⟨ts₂, hin, body, n₂, ts₃, h₂, heq⟩ := hread
          cases heq
          have hlt₁ := length_lt_of_reading h₁
          obtain ⟨hts₁, hlen₁⟩ := takeSign_eq_some hin
          obtain ⟨s₁, hs₁, -, hdefs⟩ := h.defs hlt h₁
          obtain ⟨s₂, hs₂, hbody⟩ := h.exp (by omega) h₂
          have hsome : defs ≠ [] := by simpa using hempty
          exact ⟨_, by simp [hs₁, hts₁, hs₂], .formExp (.letIn (hdefs hsome) hbody)⟩
  · next text span ts =>
      have hlt : ts.length < n := hlen
      simp only [Option.bind_eq_bind, Option.bind_eq_some_iff, Prod.exists] at hread
      obtain ⟨params, ts₁, h₁, body, n₁, ts₂, h₂, heq⟩ := hread
      cases heq
      have hlt₁ := length_lt_of_paramReading h₁
      obtain ⟨names, hnames⟩ := parseParams_takes h₁
      obtain ⟨s₂, hs₂, hbody⟩ := h.exp (by omega) h₂
      exact ⟨_, by simp [hnames, hs₂], .formExp (.map names hbody)⟩
  · obtain ⟨signs, hsigns, hbinary⟩ := h.binary_of_le hlen hread
    exact ⟨signs, hsigns, .binaryExp hbinary⟩

theorem args_of_le (h : Taken stop n) (hlen : ts.length ≤ n) {es : List Expr × Span}
    (hread : reading (parseArgList stop next ts) = some (es, next', rest)) : TakesArgs ts rest := by
  rw [reading_parseArgList] at hread
  simp only [Option.bind_eq_some_iff, Prod.exists] at hread
  obtain ⟨arg, n₁, ts₁, harg, hread⟩ := hread
  have hlt₁ := length_lt_of_reading harg
  obtain ⟨s₁, hs₁, hexp⟩ := h.exp_of_le hlen harg
  split at hread
  · next text span ts₂ =>
      simp only [Option.bind_eq_bind, Option.bind_eq_some_iff, Prod.exists] at hread
      obtain ⟨args, close, n₂, ts₃, hargs, heq⟩ := hread
      cases heq
      rw [List.length_cons] at hlt₁
      obtain ⟨s₂, hs₂, hmore⟩ := h.args (by omega) hargs
      exact ⟨s₁ ++ .comma :: s₂, by simp [hs₁, hs₂], .moreArguments hexp hmore⟩
  · cases hread
    exact ⟨s₁, hs₁, .argument hexp⟩
  · cases hread

end Taken

/-- The readers take off what belongs to their categories. -/
theorem taken (stop : Span) (n : Nat) : Taken stop n := by
  induction n with
  | zero => constructor <;> intros <;> omega
  | succ n ih =>
      exact
        { exp := fun hlen hread => ih.exp_of_le (Nat.le_of_lt_succ hlen) hread
          binary := fun hlen hread => ih.binary_of_le (Nat.le_of_lt_succ hlen) hread
          operators := fun hlen hread => ih.operators_of_le (Nat.le_of_lt_succ hlen) hread
          term := fun hlen hread => ih.term_of_le (Nat.le_of_lt_succ hlen) hread
          calls := fun hlen hread => ih.calls_of_le (Nat.le_of_lt_succ hlen) hread
          args := fun hlen hread => ih.args_of_le (Nat.le_of_lt_succ hlen) hread
          defs := fun hlen hread => ih.defs_of_le (Nat.le_of_lt_succ hlen) hread }

/-- Tokens that spell a tree form an expression. -/
theorem Expr.derives_of_ofTokens {ts : TokenList} {e : Expr} (h : Expr.ofTokens ts = .ok e) :
    Derives .exp (ts.tokens.map Token.sign) := by
  unfold Expr.ofTokens at h
  cases hparse : parseExpr ts.stop 0 ts.tokens with
  | error err =>
      rw [hparse] at h
      cases h
  | ok p =>
      rw [hparse] at h
      obtain ⟨value, next, rest, hfewer⟩ := p
      cases rest with
      | cons t rest => cases h
      | nil =>
          have hread : reading (parseExpr ts.stop 0 ts.tokens) = some (value, next, []) := by
            rw [hparse]
            rfl
          obtain ⟨signs, hsigns, hexp⟩ := (taken ts.stop _).exp (Nat.lt_succ_self _) hread
          rw [hsigns, List.map_nil, List.append_nil]
          exact hexp

/-! ## Acceptance -/

/-- Tokens are accepted if and only if they form an expression of the grammar.  A conventional phrase
groups them then, and every conventional phrase that does stands for the tree that is returned. -/
theorem ofTokens_accepts_grammar (ts : TokenList) :
    ((∃ e, Expr.ofTokens ts = .ok e) ↔ Derives .exp (ts.tokens.map Token.sign)) ∧
      ∀ e, Expr.ofTokens ts = .ok e →
        (∃ c : Phrase, c.IsConventional ∧ c.signs = ts.tokens.map Token.sign) ∧
          ∀ c : Phrase, c.IsConventional → c.signs = ts.tokens.map Token.sign →
            c.expr = e.bare := by
  refine ⟨⟨?_, ?_⟩, fun e h => ⟨(Expr.derives_of_ofTokens h).exists_phrase, ?_⟩⟩
  · rintro ⟨e, h⟩
    exact Expr.derives_of_ofTokens h
  · intro h
    obtain ⟨c, hc, hsigns⟩ := h.exists_phrase
    obtain ⟨e, he, -⟩ := Expr.ofTokens_of_phrase hc hsigns.symm
    exact ⟨e, he⟩
  · intro c hc hsigns
    obtain ⟨e', he', hbare, -⟩ := Expr.ofTokens_of_phrase hc hsigns.symm
    rw [h] at he'
    cases he'
    exact hbare.symm

/-- The tokens of `1 - 2 * 3 - map to 4 = 5 + 6`. -/
def mixedTokens : TokenList where
  tokens := [⟨.int 1, "1", ⟨0, 1⟩⟩, ⟨.operator .sub, "-", ⟨2, 3⟩⟩, ⟨.int 2, "2", ⟨4, 5⟩⟩,
    ⟨.operator .mul, "*", ⟨6, 7⟩⟩, ⟨.int 3, "3", ⟨8, 9⟩⟩, ⟨.operator .sub, "-", ⟨10, 11⟩⟩,
    ⟨.keyword .mapWord, "map", ⟨12, 15⟩⟩, ⟨.keyword .toWord, "to", ⟨16, 18⟩⟩,
    ⟨.int 4, "4", ⟨19, 20⟩⟩, ⟨.operator .eq, "=", ⟨21, 22⟩⟩, ⟨.int 5, "5", ⟨23, 24⟩⟩,
    ⟨.operator .add, "+", ⟨25, 26⟩⟩, ⟨.int 6, "6", ⟨27, 28⟩⟩]
  stop := ⟨28, 28⟩
  names := .empty

/-- The tree that they spell. -/
def mixedTree : Expr :=
  .binary ⟨11, ⟨0, 28⟩⟩ .sub
    (.binary ⟨4, ⟨0, 9⟩⟩ .sub (.int ⟨0, ⟨0, 1⟩⟩ 1)
      (.binary ⟨3, ⟨4, 9⟩⟩ .mul (.int ⟨1, ⟨4, 5⟩⟩ 2) (.int ⟨2, ⟨8, 9⟩⟩ 3)))
    (.map ⟨10, ⟨12, 28⟩⟩ []
      (.binary ⟨9, ⟨19, 28⟩⟩ .eq (.int ⟨5, ⟨19, 20⟩⟩ 4)
        (.binary ⟨8, ⟨23, 28⟩⟩ .add (.int ⟨6, ⟨23, 24⟩⟩ 5) (.int ⟨7, ⟨27, 28⟩⟩ 6))))

/-- The phrase that groups them. -/
def mixedPhrase : Phrase :=
  .binary .sub (.binary .sub (.int 1) (.binary .mul (.int 2) (.int 3)))
    (.map [] (.binary .eq (.int 4) (.binary .add (.int 5) (.int 6))))

/-- A product binds tighter than a difference, differences group to the left, and the `map` takes the
comparison behind it, in which the sum binds tighter. -/
theorem ofTokens_accepts_grammar_mixed :
    Expr.ofTokens mixedTokens = .ok mixedTree ∧ mixedPhrase.IsConventional ∧
      mixedPhrase.signs = mixedTokens.tokens.map Token.sign ∧
        mixedPhrase.expr = mixedTree.bare := by
  have htree : Expr.ofTokens mixedTokens = .ok mixedTree := by
    cbv
  have hphrase : mixedPhrase.IsConventional := by
    simp [mixedPhrase, Phrase.IsConventional, Phrase.endsInForm, Phrase.Binds,
      BinaryOp.precedence]
  have hsigns : mixedPhrase.signs = mixedTokens.tokens.map Token.sign := by rfl
  exact ⟨htree, hphrase, hsigns,
    ((ofTokens_accepts_grammar mixedTokens).2 mixedTree htree).2 mixedPhrase hphrase hsigns⟩

end PolicyEval
