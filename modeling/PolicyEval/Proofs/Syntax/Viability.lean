import PolicyEval.Proofs.Syntax.Acceptance
import PolicyEval.Proofs.Syntax.Outcome

/-!
# Errors stand at the first token that cannot go on

A reader looks at one token at a time.  Once it has left the tokens `rest` over, or has failed at
them, it has used nothing of them but the first token, so it does the same in front of any other
tokens that start with that one.  When it fails, the signs before are viable: they start something
that belongs to the category of the reader.

* `Viable` — signs that can be completed to a category.
* `StandsFor` — tokens that a reader cannot tell from others by looking at the first one.
* `Steady` — a reader that keeps its outcome in front of all such tokens and fails behind viable
  signs only.
* `steadfast` — the readers of expressions are steady.
* `ofTokens_error_at_viable_end` — a rejected token list is rejected at the end of its longest
  viable part.
-/

namespace PolicyEval

/-! ## Viable signs -/

/-- The signs start something that belongs to the category. -/
def Viable (category : Category) (signs : List Sign) : Prop :=
  ∃ more, Derives category (signs ++ more)

theorem Derives.viable {category : Category} {signs : List Sign} (h : Derives category signs) :
    Viable category signs :=
  ⟨[], by rwa [List.append_nil]⟩

/-- Some expression; it stands for what is missing. -/
theorem Derives.filler : Derives .exp [.null] := .binaryExp (.firstTerm .null)

namespace Viable

variable {s p q : List Sign}

theorem term_nil : Viable .term [] := ⟨[.null], .null⟩

theorem binary (h : Viable .term s) : Viable .binary s := by
  obtain ⟨w, hw⟩ := h
  exact ⟨w, .firstTerm hw⟩

theorem exp (h : Viable .binary s) : Viable .exp s := by
  obtain ⟨w, hw⟩ := h
  exact ⟨w, .binaryExp hw⟩

theorem test (h : Viable .exp s) : Viable .exp (.keyword .ifWord :: s) := by
  obtain ⟨w, hw⟩ := h
  exact ⟨w ++ .keyword .thenWord :: [.null] ++ .keyword .elseWord :: [.null],
    by simpa using Derives.formExp (.cond hw .filler .filler)⟩

theorem yes (hp : Derives .exp p) (h : Viable .exp s) :
    Viable .exp (.keyword .ifWord :: p ++ .keyword .thenWord :: s) := by
  obtain ⟨w, hw⟩ := h
  exact ⟨w ++ .keyword .elseWord :: [.null],
    by simpa using Derives.formExp (.cond hp hw .filler)⟩

theorem no (hp : Derives .exp p) (hq : Derives .exp q) (h : Viable .exp s) :
    Viable .exp (.keyword .ifWord :: p ++ .keyword .thenWord :: q ++ .keyword .elseWord :: s) := by
  obtain ⟨w, hw⟩ := h
  exact ⟨w, by simpa using Derives.formExp (.cond hp hq hw)⟩

theorem defs (h : Viable .definitions s) : Viable .exp (.keyword .letWord :: s) := by
  obtain ⟨w, hw⟩ := h
  exact ⟨w ++ .keyword .inWord :: [.null], by simpa using Derives.formExp (.letIn hw .filler)⟩

theorem letBody (hp : Derives .definitions p) (h : Viable .exp s) :
    Viable .exp (.keyword .letWord :: p ++ .keyword .inWord :: s) := by
  obtain ⟨w, hw⟩ := h
  exact ⟨w, by simpa using Derives.formExp (.letIn hp hw)⟩

theorem mapBody (params : List Name) (h : Viable .exp s) :
    Viable .exp (.keyword .mapWord :: (params.map .ident).intersperse .comma ++
      .keyword .toWord :: s) := by
  obtain ⟨w, hw⟩ := h
  exact ⟨w, by simpa using Derives.formExp (.map params hw)⟩

/-- A form behind an operator is an operand, and a chain goes on with a chain. -/
theorem operand (op : BinaryOp) (hp : Derives .binary p) (h : Viable .exp s) :
    Viable .binary (p ++ .operator op :: s) := by
  obtain ⟨w, hw⟩ := h
  refine ⟨w, ?_⟩
  rw [List.append_assoc, List.cons_append]
  cases hw with
  | formExp hform => exact .operation op hp (.formOperand hform)
  | binaryExp hbinary => exact hp.append op hbinary

theorem unary (op : UnaryOp) (h : Viable .term s) : Viable .term (op.sign :: s) := by
  obtain ⟨w, hw⟩ := h
  exact ⟨w, .unary op hw⟩

theorem application (h : Viable .application s) : Viable .term s := by
  obtain ⟨w, hw⟩ := h
  exact ⟨w, .application hw⟩

theorem group (h : Viable .exp s) : Viable .term (.openParen :: s) := by
  obtain ⟨w, hw⟩ := h
  exact ⟨w ++ [.closeParen], by simpa using Derives.application (.callee (.group hw))⟩

theorem call (hp : Derives .application p) (h : Viable .arguments s) :
    Viable .application (p ++ .openParen :: s) := by
  obtain ⟨w, hw⟩ := h
  exact ⟨w ++ [.closeParen], by simpa using Derives.call hp hw⟩

theorem argument (h : Viable .exp s) : Viable .arguments s := by
  obtain ⟨w, hw⟩ := h
  exact ⟨w, .argument hw⟩

theorem moreArguments (hp : Derives .exp p) (h : Viable .arguments s) :
    Viable .arguments (p ++ .comma :: s) := by
  obtain ⟨w, hw⟩ := h
  exact ⟨w, by simpa using Derives.moreArguments hp hw⟩

theorem definitions_nil : Viable .definitions [] := ⟨_, .definition default .filler⟩

theorem definitionName (name : Name) : Viable .definitions [.ident name] :=
  ⟨[.define, .null, .semicolon], .definition name .filler⟩

theorem init (name : Name) (h : Viable .exp s) :
    Viable .definitions (.ident name :: .define :: s) := by
  obtain ⟨w, hw⟩ := h
  exact ⟨w ++ [.semicolon], by simpa using Derives.definition name hw⟩

theorem moreDefinitions (name : Name) (hp : Derives .exp p) (h : Viable .definitions s) :
    Viable .definitions (.ident name :: .define :: p ++ .semicolon :: s) := by
  obtain ⟨w, hw⟩ := h
  exact ⟨w, by simpa using Derives.moreDefinitions name hp hw⟩

end Viable

/-! ## Steady readers -/

/-- Tokens that start like others, or that are at their end. -/
def StandsFor (ts ts' : List Token) : Prop := ts' = [] ∨ ∃ t us us', ts = t :: us ∧ ts' = t :: us'

theorem StandsFor.refl (ts : List Token) : StandsFor ts ts := by
  cases ts with
  | nil => exact .inl rfl
  | cons t ts => exact .inr ⟨t, ts, ts, rfl, rfl⟩

theorem StandsFor.append (pre : List Token) {ts ts' : List Token} (h : StandsFor ts ts') :
    StandsFor (pre ++ ts) (pre ++ ts') := by
  cases pre with
  | nil => exact h
  | cons t pre => exact .inr ⟨t, pre ++ ts, pre ++ ts', rfl, rfl⟩

/-- A reader that reads the same, or fails in the same place, whatever follows the first token that
it has left; the signs in front of a failure are those that `V` allows. -/
inductive Steady (stop : Span) {α : Type} (R : Reader α) (V : List Sign → Prop) (ts : List Token) :
    Prop
  | reads (a : α) (pre rest : List Token) (hts : ts = pre ++ rest)
      (h : ∀ rest', StandsFor rest rest' → R (pre ++ rest') = .ok (a, rest'))
  | fails (expected : Expected) (pre rest : List Token) (hts : ts = pre ++ rest)
      (hviable : V (pre.map Token.sign))
      (h : ∀ rest', StandsFor rest rest' →
        R (pre ++ rest') = .error (.unexpected stop expected rest'))

namespace Steady

variable {stop : Span} {α β : Type} {R R' : Reader α} {V W : List Sign → Prop} {ts : List Token}

/-- A reader that is another one in front of these tokens. -/
theorem congr (h : Steady stop R' V ts) (heq : ∀ ts', StandsFor ts ts' → R ts' = R' ts') :
    Steady stop R V ts := by
  cases h with
  | reads a pre rest hts h =>
      subst hts
      exact .reads a pre rest rfl fun rest' hrest => by rw [heq _ (hrest.append pre), h rest' hrest]
  | fails expected pre rest hts hviable h =>
      subst hts
      exact .fails expected pre rest rfl hviable fun rest' hrest => by
        rw [heq _ (hrest.append pre), h rest' hrest]

/-- A reader that goes by the first token. -/
theorem cons {t : Token} (h : Steady stop R' (fun s => V (t.sign :: s)) ts)
    (heq : ∀ ts', R (t :: ts') = R' ts') : Steady stop R V (t :: ts) := by
  cases h with
  | reads a pre rest hts h =>
      exact .reads a (t :: pre) rest (by rw [hts]; rfl) fun rest' hrest =>
        (heq _).trans (h rest' hrest)
  | fails expected pre rest hts hviable h =>
      exact .fails expected (t :: pre) rest (by rw [hts]; rfl) hviable fun rest' hrest =>
        (heq _).trans (h rest' hrest)

theorem mono (h : Steady stop R W ts) (hviable : ∀ s, W s → V s) : Steady stop R V ts := by
  cases h with
  | reads a pre rest hts h => exact .reads a pre rest hts h
  | fails expected pre rest hts hW h => exact .fails expected pre rest hts (hviable _ hW) h

/-- A reader that reads nothing here. -/
theorem stay (a : α) (h : ∀ ts', StandsFor ts ts' → R ts' = .ok (a, ts')) : Steady stop R V ts :=
  .reads a [] ts rfl h

/-- A reader that reads one token. -/
theorem take (a : α) {t : Token} (h : ∀ ts', R (t :: ts') = .ok (a, ts')) :
    Steady stop R V (t :: ts) :=
  .reads a [t] ts rfl fun rest' _ => h rest'

/-- A reader that fails here. -/
theorem halt (expected : Expected) (hviable : V [])
    (h : ∀ ts', StandsFor ts ts' → R ts' = .error (.unexpected stop expected ts')) :
    Steady stop R V ts :=
  .fails expected [] ts rfl hviable h

/-- Two readers one behind the other. -/
theorem andThen {q : Reader α} {f : α → Reader β} (hq : Steady stop q W ts)
    (hviable : ∀ s, W s → V s)
    (hf : ∀ a pre rest, ts = pre ++ rest → q ts = .ok (a, rest) →
      Steady stop (f a) (fun s => V (pre.map Token.sign ++ s)) rest) :
    Steady stop (q.andThen f) V ts := by
  cases hq with
  | fails expected pre rest hts hW h =>
      refine .fails expected pre rest hts (hviable _ hW) fun rest' hrest => ?_
      simp only [Reader.andThen, h rest' hrest]
      rfl
  | reads a pre rest hts h =>
      have hread : q ts = .ok (a, rest) := by rw [hts, h rest (.refl rest)]
      -- What follows `rest` is seen by the first reader only as far as its first token.
      have hfirst : ∀ mid later later', rest = mid ++ later → StandsFor later later' →
          q.andThen f (pre ++ mid ++ later') = f a (mid ++ later') := by
        intro mid later later' hrest hlater
        subst hrest
        simp only [Reader.andThen, List.append_assoc, h _ (hlater.append mid)]
        rfl
      cases hf a pre rest hts hread with
      | reads b mid later hrest h' =>
          refine .reads b (pre ++ mid) later (by rw [hts, hrest, List.append_assoc])
            fun later' hlater => ?_
          rw [hfirst mid later later' hrest hlater, h' later' hlater]
      | fails expected mid later hrest hV h' =>
          refine .fails expected (pre ++ mid) later (by rw [hts, hrest, List.append_assoc])
            (by rwa [List.map_append]) fun later' hlater => ?_
          rw [hfirst mid later later' hrest hlater, h' later' hlater]

theorem yield {q : Reader α} {f : α → β} (hq : Steady stop q V ts) :
    Steady stop (q.yield f) V ts :=
  hq.andThen (fun _ h => h) fun a _ _ _ _ => .stay (f a) fun _ _ => rfl

/-- A sign and what is read behind it. -/
theorem expect {sign : Sign} {expected : Expected} {f : Unit → Reader α} (hviable : V [])
    (hf : ∀ rest, ts.length = rest.length + 1 → ts.map Token.sign = sign :: rest.map Token.sign →
      Steady stop (f ()) (fun s => V (sign :: s)) rest) :
    Steady stop ((Reader.expect stop sign expected).andThen f) V ts := by
  cases ts with
  | nil =>
      refine .halt expected hviable fun ts' hts => ?_
      obtain rfl | ⟨t, us, us', h, -⟩ := hts
      · rfl
      · cases h
  | cons t ts =>
      by_cases hsign : t.sign = sign
      · subst hsign
        refine .cons (hf ts rfl rfl) fun ts' => ?_
        simp only [Reader.andThen, Reader.expect, expectSign]
        rfl
      · refine .halt expected hviable fun ts' hts => ?_
        obtain rfl | ⟨_, us, us', h, rfl⟩ := hts
        · rfl
        · cases h
          simp only [Reader.andThen, Reader.expect, expectSign, if_neg hsign]
          rfl

end Steady

/-! ## What the readers have taken -/

section

variable {stop : Span} {next : Nat} {ts pre rest : List Token}

theorem reading_of_outcome {α : Type} {n : Nat} {x : Except ParseError (Parsed α n)} {a : α × Nat}
    (h : outcome x = .ok (a, rest)) : reading x = some (a.1, a.2, rest) := by
  cases x with
  | error e => cases h
  | ok p =>
      cases h
      rfl

theorem derives_of_takes {category : Category} (h : Takes category ts rest)
    (hts : ts = pre ++ rest) : Derives category (pre.map Token.sign) := by
  obtain ⟨signs, hsigns, hderives⟩ := h
  rw [hts, List.map_append, List.append_cancel_right_eq] at hsigns
  rwa [hsigns]

theorem exprReader_derives {a : Expr × Nat} (h : exprReader stop next ts = .ok (a, rest))
    (hts : ts = pre ++ rest) : rest.length < ts.length ∧ Derives .exp (pre.map Token.sign) :=
  have hread := reading_of_outcome h
  ⟨length_lt_of_reading hread,
    derives_of_takes ((taken stop _).exp (Nat.lt_succ_self _) hread) hts⟩

theorem binaryReader_derives {min : Nat} {a : Expr × Nat}
    (h : binaryReader stop min next ts = .ok (a, rest)) (hts : ts = pre ++ rest) :
    rest.length < ts.length ∧ Derives .binary (pre.map Token.sign) :=
  have hread := reading_of_outcome h
  ⟨length_lt_of_reading hread,
    derives_of_takes ((taken stop _).binary (Nat.lt_succ_self _) hread) hts⟩

theorem termReader_derives {a : Expr × Nat} (h : termReader stop next ts = .ok (a, rest))
    (hts : ts = pre ++ rest) : rest.length < ts.length ∧ Derives .term (pre.map Token.sign) :=
  have hread := reading_of_outcome h
  ⟨length_lt_of_reading hread,
    derives_of_takes ((taken stop _).term (Nat.lt_succ_self _) hread) hts⟩

theorem operandReader_derives {min : Nat} {a : Expr × Nat} (op : BinaryOp) {before : List Sign}
    (hbefore : Derives .binary before) (h : operandReader stop next min ts = .ok (a, rest))
    (hts : ts = pre ++ rest) : rest.length < ts.length ∧
      Derives .binary (before ++ .operator op :: pre.map Token.sign) := by
  unfold operandReader at h
  split at h
  · obtain ⟨hlt, hexp⟩ := exprReader_derives h hts
    refine ⟨hlt, ?_⟩
    cases hexp with
    | formExp hform => exact .operation op hbefore (.formOperand hform)
    | binaryExp hbinary => exact hbefore.append op hbinary
  · obtain ⟨hlt, hbinary⟩ := binaryReader_derives h hts
    exact ⟨hlt, hbefore.append op hbinary⟩

theorem defsReader_derives {a : List (Binder × Expr) × Nat}
    (h : defsReader stop next ts = .ok (a, rest)) (hts : ts = pre ++ rest) :
    rest.length ≤ ts.length ∧ (a.1 = [] → pre = []) ∧
      (a.1 ≠ [] → Derives .definitions (pre.map Token.sign)) := by
  have hread := reading_of_outcome h
  obtain ⟨signs, hsigns, hnone, hsome⟩ := (taken stop _).defs (Nat.lt_succ_self _) hread
  rw [hts, List.map_append, List.append_cancel_right_eq] at hsigns
  subst hsigns
  exact ⟨Nat.le_of_lt_succ (length_lt_of_reading hread),
    fun hempty => by simpa using hnone hempty, hsome⟩

theorem argsReader_derives {a : (List Expr × Span) × Nat} {before : List Sign}
    (hbefore : Derives .application before) (h : argsReader stop next ts = .ok (a, rest))
    (hts : ts = pre ++ rest) : rest.length < ts.length ∧
      Derives .application (before ++ .openParen :: pre.map Token.sign) := by
  have hread := reading_of_outcome h
  refine ⟨length_lt_of_reading hread, ?_⟩
  rw [reading_parseArgs] at hread
  split at hread
  · obtain ⟨args, next'⟩ := a
    cases hread
    obtain rfl : [_] = pre := List.append_cancel_right hts
    exact .callNone hbefore
  · obtain ⟨signs, hsigns, hargs⟩ := (taken stop _).args (Nat.lt_succ_self _) hread
    rw [← List.singleton_append, ← List.append_assoc, hts, List.map_append,
      List.append_cancel_right_eq] at hsigns
    rw [hsigns]
    simpa using Derives.call hbefore hargs

end

/-! ## The readers of expressions are steady -/

theorem StandsFor.of_cons {t : Token} {ts ts' : List Token} (h : StandsFor (t :: ts) ts') :
    ts' = [] ∨ ∃ us, ts' = t :: us := by
  obtain rfl | ⟨_, _, us', heq, rfl⟩ := h
  · exact .inl rfl
  · cases heq
    exact .inr ⟨us', rfl⟩

/-- A sign that does not come first does not come first in what continues the same way. -/
theorem StandsFor.ne_cons {sign : Sign} {ts ts' : List Token} (h : StandsFor ts ts')
    (hne : ¬ ∃ text span rest, ts = ⟨sign, text, span⟩ :: rest) (text : String) (span : Span)
    (rest : List Token) : ts' ≠ ⟨sign, text, span⟩ :: rest := by
  rintro rfl
  obtain heq | ⟨t, us, us', rfl, heq⟩ := h
  · cases heq
  · cases heq
    exact hne ⟨text, span, us, rfl⟩

/-- The signs start a list of parameters. -/
def ViableParams (signs : List Sign) : Prop :=
  ∃ more name names, signs ++ more = ((name :: names : List Name).map .ident).intersperse .comma

theorem ViableParams.viable {s : List Sign} (h : ViableParams s) :
    Viable .exp (.keyword .mapWord :: s) := by
  obtain ⟨more, name, names, heq⟩ := h
  refine ⟨more ++ [.keyword .toWord, .null], ?_⟩
  have hmap := Derives.formExp (.map (name :: names) .filler)
  rw [← heq] at hmap
  simpa using hmap

theorem ViableParams.cons {s : List Sign} (name : Name) (h : ViableParams s) :
    ViableParams (.ident name :: .comma :: s) := by
  obtain ⟨more, name', names, heq⟩ := h
  exact ⟨more, name, name' :: names, by simpa using heq⟩

theorem paramListReader_steady (stop : Span) (ts : List Token) :
    Steady stop (paramListReader stop) ViableParams ts := by
  by_cases hident : ∃ name text span rest, ts = ⟨.ident name, text, span⟩ :: rest
  · obtain ⟨name, text, span, ts, rfl⟩ := hident
    by_cases hcomma : ∃ text span rest, ts = ⟨.comma, text, span⟩ :: rest
    · obtain ⟨text', span', ts, rfl⟩ := hcomma
      refine .cons (.cons ?_ fun _ => rfl) fun _ => rfl
      have hrest := (paramListReader_steady stop ts).mono fun _ => ViableParams.cons name
      exact Steady.congr hrest.yield fun ts' _ => paramListReader_ident stop text span _ name
    · refine .cons (.stay [⟨name, span⟩] fun ts' hts => ?_) fun _ => rfl
      rw [paramListReader_ident]
      split
      · exact absurd rfl (hts.ne_cons hcomma _ _ _)
      · rfl
  · refine .halt .parameterName ⟨[.ident default], default, [], rfl⟩ fun ts' hts => ?_
    have hname : ∀ name text span rest, ts' ≠ ⟨.ident name, text, span⟩ :: rest := fun name =>
      hts.ne_cons fun hname => hident ⟨name, hname⟩
    unfold paramListReader
    rw [parseParamList]
    · rfl
    · exact fun name text span text' span' rest => hname name text span _
    · exact hname
termination_by ts.length

theorem paramReading_of_outcome {n : Nat} {params : List Binder} {rest : List Token}
    {x : Except ParseError (List Binder × { rest : List Token // rest.length < n })}
    (h : paramOutcome x = .ok (params, rest)) : paramReading x = some (params, rest) := by
  cases x with
  | error e => cases h
  | ok p =>
      cases h
      rfl

theorem paramsReader_steady (stop : Span) (ts : List Token) :
    Steady stop (paramsReader stop) (fun s => Viable .exp (.keyword .mapWord :: s)) ts := by
  by_cases hto : ∃ text span rest, ts = ⟨.keyword .toWord, text, span⟩ :: rest
  · obtain ⟨text, span, ts, rfl⟩ := hto
    exact .take [] fun ts' => rfl
  · refine Steady.congr ?_ fun ts' hts => paramsReader_eq stop ts' (hts.ne_cons hto)
    refine (paramListReader_steady stop ts).andThen (fun _ => ViableParams.viable)
      fun params pre rest hts hread => ?_
    obtain ⟨name, names, hnames⟩ := parseParamList_takes (paramReading_of_outcome hread)
    rw [hts, List.map_append, List.append_cancel_right_eq] at hnames
    refine .expect ?_ fun _ _ _ => .stay params fun _ _ => rfl
    exact ViableParams.viable ⟨[], name, names, by simpa using hnames⟩

/-- The readers are steady in front of fewer than `n` tokens. -/
structure Steadfast (stop : Span) (n : Nat) : Prop where
  exp : ∀ next {ts}, ts.length < n → Steady stop (exprReader stop next) (Viable .exp) ts
  binary : ∀ min next {ts}, ts.length < n →
    Steady stop (binaryReader stop min next) (Viable .binary) ts
  operators : ∀ min left next {ts}, ts.length < n → ∀ before, Derives .binary before →
    Steady stop (operatorsReader stop min left next) (fun s => Viable .binary (before ++ s)) ts
  term : ∀ next {ts}, ts.length < n → Steady stop (termReader stop next) (Viable .term) ts
  calls : ∀ callee next {ts}, ts.length < n → ∀ before, Derives .application before →
    Steady stop (callsReader stop callee next) (fun s => Viable .application (before ++ s)) ts
  argList : ∀ next {ts}, ts.length < n →
    Steady stop (argListReader stop next) (Viable .arguments) ts
  defs : ∀ next {ts}, ts.length < n →
    Steady stop (defsReader stop next) (Viable .definitions) ts

namespace Steadfast

variable {stop : Span} {n next : Nat} {ts : List Token}

theorem args_steady (h : Steadfast stop n) (hlt : ts.length < n) :
    Steady stop (argsReader stop next) (Viable .arguments) ts := by
  by_cases hclose : ∃ text span rest, ts = ⟨.closeParen, text, span⟩ :: rest
  · obtain ⟨text, span, rest, rfl⟩ := hclose
    exact .take _ fun ts' => argsReader_close stop next text span ts'
  · exact (h.argList next hlt).congr fun ts' hts =>
      argsReader_eq stop next ts' (hts.ne_cons hclose)

theorem calls_of_le (h : Steadfast stop n) (hlen : ts.length ≤ n) (callee : Expr)
    {before : List Sign} (hbefore : Derives .application before) :
    Steady stop (callsReader stop callee next) (fun s => Viable .application (before ++ s)) ts := by
  by_cases hopen : ∃ text span rest, ts = ⟨.openParen, text, span⟩ :: rest
  · obtain ⟨text, span, ts, rfl⟩ := hopen
    have hlt : ts.length < n := hlen
    refine .cons ?_ fun ts' => callsReader_open stop next text span ts' callee
    refine (h.args_steady hlt).andThen (fun _ => .call hbefore) fun args pre rest hts hread => ?_
    obtain ⟨hfewer, hcall⟩ := argsReader_derives hbefore hread hts
    have hmore := h.calls (.call ⟨args.2, callee.span.merge args.1.2⟩ callee args.1.1) (args.2 + 1)
      (Nat.lt_trans hfewer hlt) _ hcall
    simpa only [List.append_assoc, List.cons_append] using hmore
  · exact .stay (callee, next) fun ts' hts =>
      callsReader_done stop next ts' callee (hts.ne_cons hopen)

theorem termReader_nil : termReader stop next [] = .error (.unexpected stop .expression []) := by
  unfold termReader
  rw [parseTerm]
  rfl

theorem binaryReader_nil (min : Nat) :
    binaryReader stop min next [] = .error (.unexpected stop .expression []) := by
  rw [binaryReader_eq]
  simp only [Reader.andThen, termReader_nil]
  rfl

theorem startsOpenForm_cons (t : Token) (ts : List Token) :
    startsOpenForm (t :: ts) = startsOpenForm [t] := by
  obtain ⟨sign, text, span⟩ := t
  cases sign with
  | keyword k => cases k <;> rfl
  | _ => rfl

theorem operand_steady (h : Steadfast stop n) (hlt : ts.length < n) (min : Nat) :
    Steady stop (operandReader stop next min) (Viable .exp) ts := by
  by_cases hform : startsOpenForm ts = true
  · refine (h.exp next hlt).congr fun ts' hts => ?_
    unfold operandReader
    -- At the end of the tokens both readers look for an expression.
    obtain rfl | ⟨t, us, us', rfl, rfl⟩ := hts
    · rw [exprReader_eq_binaryReader stop next [] rfl, binaryReader_nil, binaryReader_nil]
      rfl
    · rw [startsOpenForm_cons] at hform ⊢
      rw [if_pos hform]
  · refine ((h.binary min next hlt).mono fun _ => .exp).congr fun ts' hts => ?_
    unfold operandReader
    obtain rfl | ⟨t, us, us', rfl, rfl⟩ := hts
    · rfl
    · rw [startsOpenForm_cons] at hform ⊢
      rw [if_neg hform]

theorem operators_of_le (h : Steadfast stop n) (hlen : ts.length ≤ n) (min : Nat) (left : Expr)
    {before : List Sign} (hbefore : Derives .binary before) :
    Steady stop (operatorsReader stop min left next) (fun s => Viable .binary (before ++ s))
      ts := by
  by_cases hoperator : ∃ op text span rest, ts = ⟨.operator op, text, span⟩ :: rest
  · obtain ⟨op, text, span, ts, rfl⟩ := hoperator
    have hlt : ts.length < n := hlen
    by_cases hlow : op.precedence < min
    · refine .stay (left, next) fun ts' hts => ?_
      obtain rfl | ⟨us, rfl⟩ := hts.of_cons
      · exact operatorsReader_done stop next [] min left (by simp)
      · exact operatorsReader_of_lt stop next text span us min left op hlow
    · refine .cons ?_ fun ts' => operatorsReader_operator stop next text span ts' min left op hlow
      refine (h.operand_steady hlt _).andThen (fun _ => .operand op hbefore)
        fun right pre rest hts hread => ?_
      obtain ⟨hfewer, hbinary⟩ := operandReader_derives op hbefore hread hts
      have hmore := h.operators min
        (.binary ⟨right.2, left.span.merge right.1.span⟩ op left right.1) (right.2 + 1)
        (Nat.lt_trans hfewer hlt) _ hbinary
      simpa only [List.append_assoc, List.cons_append] using hmore
  · refine .stay (left, next) fun ts' hts => operatorsReader_done stop next ts' min left ?_
    exact fun op => hts.ne_cons fun hop => hoperator ⟨op, hop⟩

theorem group_steady (h : Steadfast stop n) (hlt : ts.length < n) :
    Steady stop ((exprReader stop next).andThen fun inner =>
      (Reader.expect stop .closeParen .closeParen).andThen fun _ =>
        callsReader stop inner.1 inner.2) (fun s => Viable .term (.openParen :: s)) ts := by
  refine (h.exp next hlt).andThen (fun _ => .group) fun inner pre rest hts hread => ?_
  obtain ⟨hfewer, hexp⟩ := exprReader_derives hread hts
  refine .expect (by simpa using hexp.viable.group) fun rest' hlen' _ => ?_
  have happlication : Derives .application (.openParen :: pre.map Token.sign ++ [.closeParen]) :=
    .callee (.group hexp)
  refine (h.calls inner.1 inner.2 (by omega) _ happlication).mono fun s hs => ?_
  simpa using hs.application

theorem term_of_le (h : Steadfast stop n) (hlen : ts.length ≤ n) :
    Steady stop (termReader stop next) (Viable .term) ts := by
  cases ts with
  | nil =>
      refine .halt .expression .term_nil fun ts' hts => ?_
      obtain rfl | ⟨_, _, _, heq, -⟩ := hts
      · exact termReader_nil
      · cases heq
  | cons t ts =>
      have hlt : ts.length < n := hlen
      cases hop : t.sign.unaryOp? with
      | some op =>
          refine .cons ((h.term next hlt).yield.mono fun s hs => ?_) fun ts' =>
            termReader_unary stop next ts' hop
          rw [eq_sign_of_unaryOp? hop]
          exact hs.unary op
      | none =>
          obtain ⟨sign, text, span⟩ := t
          cases sign with
          | int n => exact .take _ fun ts' => termReader_int stop next text span ts' n
          | bool b => exact .take _ fun ts' => termReader_bool stop next text span ts' b
          | null => exact .take _ fun ts' => termReader_null stop next text span ts'
          | prim p =>
              have hcalls := h.calls (.prim ⟨next, span⟩ p) (next + 1) hlt _ (.callee (.prim p))
              exact .cons (hcalls.mono fun _ hs => hs.application) fun ts' =>
                termReader_prim stop next text span ts' p
          | ident name =>
              have hcalls := h.calls (.ident ⟨next, span⟩ name) (next + 1) hlt _
                (.callee (.ident name))
              exact .cons (hcalls.mono fun _ hs => hs.application) fun ts' =>
                termReader_ident stop next text span ts' name
          | openParen =>
              exact .cons (h.group_steady hlt) fun ts' => termReader_open stop next text span ts'
          -- No term starts with any of these, so the reader stops there whatever follows.
          | keyword | operator | tilde | define | closeParen | comma | semicolon =>
              refine .halt .expression .term_nil fun ts' hts => ?_
              obtain rfl | ⟨us, rfl⟩ := hts.of_cons
              · exact termReader_nil
              · unfold termReader
                rw [parseTerm, hop]
                rfl

theorem binary_of_le (h : Steadfast stop n) (hlen : ts.length ≤ n) (min : Nat) :
    Steady stop (binaryReader stop min next) (Viable .binary) ts := by
  refine Steady.congr ?_ fun ts' _ => binaryReader_eq stop next ts' min
  refine (h.term_of_le hlen).andThen (fun _ => Viable.binary) fun left pre rest hts hread => ?_
  obtain ⟨hlt, hterm⟩ := termReader_derives hread hts
  exact h.operators min left.1 left.2 (by omega) _ (.firstTerm hterm)

theorem moreDefs_steady (h : Steadfast stop n) (hlt : ts.length < n) (binder : Binder)
    (name : Name) : Steady stop (moreDefsReader stop next binder)
      (fun s => Viable .definitions (.ident name :: s)) ts := by
  refine .expect (.definitionName name) fun ts₁ hlen₁ _ => ?_
  refine (h.exp next (by omega)).andThen (fun _ => .init name) fun init pre ts₂ hts hread => ?_
  obtain ⟨hfewer, hexp⟩ := exprReader_derives hread hts
  refine .expect (by simpa using hexp.viable.init name) fun ts₃ hlen₃ _ => ?_
  refine ((h.defs init.2 (by omega)).mono fun s hs => ?_).yield
  exact hs.moreDefinitions name hexp

theorem defs_of_le (h : Steadfast stop n) (hlen : ts.length ≤ n) :
    Steady stop (defsReader stop next) (Viable .definitions) ts := by
  by_cases hident : ∃ name text span rest, ts = ⟨.ident name, text, span⟩ :: rest
  · obtain ⟨name, text, span, ts, rfl⟩ := hident
    exact .cons (h.moreDefs_steady hlen ⟨name, span⟩ name) fun ts' =>
      defsReader_ident stop next text span ts' name
  · refine .stay ([], next) fun ts' hts => defsReader_done stop next ts' ?_
    exact fun name => hts.ne_cons fun hname => hident ⟨name, hname⟩

theorem cond_steady (h : Steadfast stop n) (hlt : ts.length < n) (span : Span) :
    Steady stop ((exprReader stop next).andThen (fun test =>
      (Reader.expect stop (.keyword .thenWord) .thenWord).andThen fun _ =>
        (exprReader stop test.2).andThen fun yes =>
          (Reader.expect stop (.keyword .elseWord) .elseWord).andThen fun _ =>
            (exprReader stop yes.2).yield fun no =>
              (Expr.cond ⟨no.2, span.merge no.1.span⟩ test.1 yes.1 no.1, no.2 + 1)))
      (fun s => Viable .exp (.keyword .ifWord :: s)) ts := by
  refine (h.exp next hlt).andThen (fun _ => .test) fun test pre ts₁ hts hread => ?_
  obtain ⟨hfewer, htest⟩ := exprReader_derives hread hts
  refine .expect (by simpa using htest.viable.test) fun ts₂ hlen₂ _ => ?_
  refine (h.exp test.2 (by omega)).andThen (fun _ => .yes htest) fun yes pre' ts₃ hts' hread' => ?_
  obtain ⟨hfewer', hyes⟩ := exprReader_derives hread' hts'
  refine .expect (by simpa using hyes.viable.yes htest) fun ts₄ hlen₄ _ => ?_
  refine ((h.exp yes.2 (by omega)).mono fun s hs => ?_).yield
  simpa using hs.no htest hyes

theorem letIn_steady (h : Steadfast stop n) (hlt : ts.length < n) (text : String) (span : Span) :
    Steady stop (exprReader stop next) (Viable .exp) (⟨.keyword .letWord, text, span⟩ :: ts) := by
  by_cases hident : ∃ name text' span' rest, ts = ⟨.ident name, text', span'⟩ :: rest
  · obtain ⟨name, text', span', ts, rfl⟩ := hident
    rw [List.length_cons] at hlt
    refine .cons (.cons ?_ fun _ => rfl) fun ts' => rfl
    refine Steady.congr ?_ fun ts' _ =>
      exprReader_let_ident stop next text span ts' name text' span'
    refine (h.moreDefs_steady (by omega) ⟨name, span'⟩ name).andThen (fun _ => .defs)
      fun defs pre ts₁ hts hread => ?_
    have hdefs : defsReader stop next (⟨.ident name, text', span'⟩ :: ts) = .ok (defs, ts₁) := by
      rw [defsReader_ident, hread]
    have hsplit : ⟨.ident name, text', span'⟩ :: ts =
        (⟨.ident name, text', span'⟩ :: pre) ++ ts₁ := by
      rw [hts, List.cons_append]
    obtain ⟨hfewer, -, hsome⟩ := defsReader_derives hdefs hsplit
    have hderives := hsome (ne_nil_of_moreDefsReader stop next ts hread)
    refine .expect (by simpa using hderives.viable.defs) fun ts₂ hlen₂ _ => ?_
    refine ((h.exp defs.2 ?_).mono fun s hs => ?_).yield
    · rw [List.length_cons] at hfewer
      omega
    · simpa using hs.letBody hderives
  · refine .cons (.halt .definitionName (Viable.defs .definitions_nil) fun ts' hts => ?_)
      fun ts' => rfl
    exact exprReader_let_done stop next text span ts' fun name =>
      hts.ne_cons fun hname => hident ⟨name, hname⟩

theorem map_steady (h : Steadfast stop n) (hlt : ts.length < n) (span : Span) :
    Steady stop ((paramsReader stop).andThen (fun params =>
      (exprReader stop next).yield fun body =>
        (Expr.map ⟨body.2, span.merge body.1.span⟩ params body.1, body.2 + 1)))
      (fun s => Viable .exp (.keyword .mapWord :: s)) ts := by
  refine (paramsReader_steady stop ts).andThen (fun _ hs => hs) fun params pre rest hts hread => ?_
  have hparams := paramReading_of_outcome hread
  have hfewer := length_lt_of_paramReading hparams
  obtain ⟨names, hnames⟩ := parseParams_takes hparams
  rw [hts, List.map_append, ← List.singleton_append, ← List.append_assoc,
    List.append_cancel_right_eq] at hnames
  refine ((h.exp next (by omega)).mono fun s hs => ?_).yield
  rw [hnames]
  simpa using hs.mapBody names

theorem exp_of_le (h : Steadfast stop n) (hlen : ts.length ≤ n) :
    Steady stop (exprReader stop next) (Viable .exp) ts := by
  by_cases hform : startsOpenForm ts = true
  · match ts, hform with
    | ⟨.keyword .ifWord, text, span⟩ :: ts, _ =>
        exact .cons (h.cond_steady hlen span) fun ts' => exprReader_if stop next text span ts'
    | ⟨.keyword .letWord, text, span⟩ :: ts, _ => exact h.letIn_steady hlen text span
    | ⟨.keyword .mapWord, text, span⟩ :: ts, _ =>
        exact .cons (h.map_steady hlen span) fun ts' => exprReader_map stop next text span ts'
  · refine ((h.binary_of_le hlen 0).mono fun _ => .exp).congr fun ts' hts =>
      exprReader_eq_binaryReader stop next ts' ?_
    obtain rfl | ⟨t, us, us', rfl, rfl⟩ := hts
    · rfl
    · rw [startsOpenForm_cons] at hform ⊢
      simpa using hform

theorem moreArgs_steady (h : Steadfast stop n) (hlt : ts.length < n) (arg : Expr)
    {before : List Sign} (hbefore : Derives .exp before) :
    Steady stop (moreArgsReader stop next arg) (fun s => Viable .arguments (before ++ s)) ts := by
  by_cases hcomma : ∃ text span rest, ts = ⟨.comma, text, span⟩ :: rest
  · obtain ⟨text, span, ts, rfl⟩ := hcomma
    have hfewer : ts.length < n := Nat.lt_trans (Nat.lt_succ_self _) hlt
    exact .cons ((h.argList next hfewer).mono fun _ => .moreArguments hbefore).yield
      fun ts' => rfl
  · by_cases hclose : ∃ text span rest, ts = ⟨.closeParen, text, span⟩ :: rest
    · obtain ⟨text, span, ts, rfl⟩ := hclose
      exact .take _ fun ts' => rfl
    · refine .halt .commaOrClose (by simpa using hbefore.viable.argument) fun ts' hts => ?_
      rw [moreArgsReader]
      · exact hts.ne_cons hcomma
      · exact hts.ne_cons hclose

theorem argList_of_le (h : Steadfast stop n) (hlen : ts.length ≤ n) :
    Steady stop (argListReader stop next) (Viable .arguments) ts := by
  refine Steady.congr ?_ fun ts' _ => argListReader_eq stop next ts'
  refine (h.exp_of_le hlen).andThen (fun _ => .argument) fun arg pre rest hts hread => ?_
  obtain ⟨hfewer, hexp⟩ := exprReader_derives hread hts
  exact h.moreArgs_steady (by omega) arg.1 hexp

end Steadfast

/-- The readers are steady. -/
theorem steadfast (stop : Span) (n : Nat) : Steadfast stop n := by
  induction n with
  | zero => constructor <;> intros <;> omega
  | succ n ih =>
      exact
        { exp := fun _ _ hlen => ih.exp_of_le (Nat.le_of_lt_succ hlen)
          binary := fun min _ _ hlen => ih.binary_of_le (Nat.le_of_lt_succ hlen) min
          operators := fun min left _ _ hlen _ hbefore =>
            ih.operators_of_le (Nat.le_of_lt_succ hlen) min left hbefore
          term := fun _ _ hlen => ih.term_of_le (Nat.le_of_lt_succ hlen)
          calls := fun callee _ _ hlen _ hbefore =>
            ih.calls_of_le (Nat.le_of_lt_succ hlen) callee hbefore
          argList := fun _ _ hlen => ih.argList_of_le (Nat.le_of_lt_succ hlen)
          defs := fun _ _ hlen => ih.defs_of_le (Nat.le_of_lt_succ hlen) }

/-! ## The place of an error -/

theorem Expr.ofTokens_eq (ts : TokenList) :
    Expr.ofTokens ts = (do
      let p ← exprReader ts.stop 0 ts.tokens
      match p.2 with
      | [] => .ok p.1.1
      | t :: _ => .error ⟨.trailingInput t.sign, t.span⟩) := by
  unfold Expr.ofTokens exprReader outcome
  cases parseExpr ts.stop 0 ts.tokens with
  | error e => rfl
  | ok p =>
      obtain ⟨value, next, rest, hfewer⟩ := p
      cases rest <;> rfl

/-- Tokens that form an expression are read to their end. -/
theorem exists_exprReader_of_derives {tokens : List Token} (stop : Span)
    (h : Derives .exp (tokens.map Token.sign)) : ∃ a, exprReader stop 0 tokens = .ok (a, []) := by
  obtain ⟨c, hc, hsigns⟩ := h.exists_phrase
  obtain ⟨e, -, hread⟩ := (Phrase.reads c hc).exp 0 tokens [] hsigns.symm trivial
  rw [List.append_nil] at hread
  obtain ⟨hfewer, hparse⟩ := exists_of_reading_eq_some hread
  exact ⟨_, by rw [exprReader, hparse]; rfl⟩

/-- Signs are not viable if nothing that starts with them is read to its end. -/
theorem not_viable_of_exprReader {stop : Span} {pre : List Token} {t : Token}
    (h : ∀ us a, exprReader stop 0 (pre ++ t :: us) ≠ .ok (a, [])) :
    ¬ Viable .exp ((pre ++ [t]).map Token.sign) := by
  rintro ⟨more, hmore⟩
  have hsigns : (pre ++ t :: more.map fun sign => ⟨sign, "", stop⟩).map Token.sign =
      (pre ++ [t]).map Token.sign ++ more := by
    simp [Function.comp_def]
  rw [← hsigns] at hmore
  obtain ⟨a, ha⟩ := exists_exprReader_of_derives stop hmore
  exact h _ a ha

/-- The place of the token at a position, or of the end. -/
def TokenList.spanAt (ts : TokenList) (k : Nat) : Span :=
  (ts.tokens[k]?.map Token.span).getD ts.stop

/-- A token list that is rejected is rejected at the end of its longest viable part: the tokens
before the place of the error start an expression, and with the token there they do not.  The error
is an unexpected end exactly when it stands behind all tokens, and a trailing token exactly when
those before it are a complete expression. -/
theorem ofTokens_error_at_viable_end {ts : TokenList} {e : ParseError}
    (h : Expr.ofTokens ts = .error e) :
    ∃ k ≤ ts.tokens.length, e.span = ts.spanAt k ∧
      Viable .exp ((ts.tokens.take k).map Token.sign) ∧
      (k < ts.tokens.length → ¬ Viable .exp ((ts.tokens.take (k + 1)).map Token.sign)) ∧
      ((∃ expected, e.cause = .unexpectedEnd expected) ↔ k = ts.tokens.length) ∧
      ((∃ found, e.cause = .trailingInput found) ↔
        Derives .exp ((ts.tokens.take k).map Token.sign)) := by
  obtain ⟨tokens, stop, names⟩ := ts
  rw [Expr.ofTokens_eq] at h
  cases (steadfast stop _).exp 0 (Nat.lt_succ_self tokens.length) with
  | reads a pre rest hts hread =>
      have hsame : exprReader stop 0 tokens = .ok (a, rest) := by
        rw [hts, hread rest (.refl rest)]
      obtain ⟨-, hexp⟩ := exprReader_derives hsame hts
      simp only [hsame, bind, Except.bind] at h
      cases rest with
      | nil => cases h
      | cons t us =>
          cases h
          subst hts
          have hstuck : ¬ Viable .exp ((pre ++ [t]).map Token.sign) := by
            refine @not_viable_of_exprReader stop pre t fun us' a' => ?_
            rw [hread (t :: us') (.inr ⟨t, us, us', rfl, rfl⟩)]
            simp
          exact ⟨pre.length, by simp, by simp [TokenList.spanAt], by simpa using hexp.viable,
            fun _ => by simpa [List.take_add_one] using hstuck, by simp, by simpa using hexp⟩
  | fails expected pre rest hts hviable hfail =>
      have hsame : exprReader stop 0 tokens = .error (.unexpected stop expected rest) := by
        rw [hts, hfail rest (.refl rest)]
      simp only [hsame, bind, Except.bind] at h
      cases h
      subst hts
      -- The tokens before the error are no expression: the reader fails at their end as well.
      have hincomplete : ¬ Derives .exp (pre.map Token.sign) := by
        intro hexp
        obtain ⟨a, ha⟩ := exists_exprReader_of_derives stop hexp
        have hend := hfail [] (.inl rfl)
        rw [List.append_nil, ha] at hend
        cases hend
      refine ⟨pre.length, by simp, ?_, by simpa using hviable, fun hlt => ?_, ?_, ?_⟩
      · cases rest <;> simp [TokenList.spanAt, ParseError.unexpected]
      · cases rest with
        | nil => simp at hlt
        | cons t us =>
            have hstuck : ¬ Viable .exp ((pre ++ [t]).map Token.sign) := by
              refine @not_viable_of_exprReader stop pre t fun us' a' => ?_
              rw [hfail (t :: us') (.inr ⟨t, us, us', rfl, rfl⟩)]
              simp
            simpa [List.take_add_one] using hstuck
      · cases rest <;> simp [ParseError.unexpected]
      · cases rest <;> simpa [ParseError.unexpected] using hincomplete

/-- The tokens of `1 + - if`. -/
def negatedForm : TokenList where
  tokens := [⟨.int 1, "1", ⟨0, 1⟩⟩, ⟨.operator .add, "+", ⟨2, 3⟩⟩, ⟨.operator .sub, "-", ⟨4, 5⟩⟩,
    ⟨.keyword .ifWord, "if", ⟨6, 8⟩⟩]
  stop := ⟨8, 8⟩
  names := .empty

/-- A form may be an operand of a binary operator, but not of a unary one. -/
theorem ofTokens_error_at_viable_end_negatedForm :
    Expr.ofTokens negatedForm =
        .error ⟨.unexpectedToken .expression (.keyword .ifWord), ⟨6, 8⟩⟩ ∧
      Viable .exp [.int 1, .operator .add, .operator .sub] ∧
      ¬ Viable .exp [.int 1, .operator .add, .operator .sub, .keyword .ifWord] := by
  have herror : Expr.ofTokens negatedForm =
      .error ⟨.unexpectedToken .expression (.keyword .ifWord), ⟨6, 8⟩⟩ := by
    cbv
  obtain ⟨k, hk, hspan, hviable, hstuck, -, -⟩ := ofTokens_error_at_viable_end herror
  obtain rfl : k = 3 := by
    have hcases : k = 0 ∨ k = 1 ∨ k = 2 ∨ k = 3 ∨ k = 4 := by
      simp only [negatedForm, List.length_cons, List.length_nil] at hk
      omega
    rcases hcases with rfl | rfl | rfl | rfl | rfl
    case inr.inr.inr.inl => rfl
    all_goals cases hspan
  exact ⟨herror, hviable, hstuck (by decide)⟩

end PolicyEval
