import PolicyEval.Proofs.Likeness.Running
import PolicyEval.Proofs.Likeness.Scopes
import PolicyEval.Proofs.Syntax.Numbering

/-!
# What was interned before cannot be seen

The number of a name depends on what its table held before the source was read.  Nothing that can be
seen of the source does: names are told apart by their numbers, and a table gives one number to one
text.

* `Problem.unnumbered`, `Problem.notice` — failures without the numbers of names, and what they say.
* `Observation.ofSource` — all that can be seen of a source over a table.
* `Likeness.tables` — names that have one text in two tables.
* `scan_alike`, `Expr.ofSourceWith_alike` — reading a source over two tables.
* `history_unobservable` — one observation over all tables.
-/

namespace PolicyEval

/-! ## Without the numbers of names -/

/-- The text of the name under a number that says nothing. -/
def Name.unnumbered (name : Name) : Name := ⟨0, name.text⟩

def Sign.unnumbered : Sign → Sign
  | .ident name => .ident name.unnumbered
  | sign => sign

def Token.unnumbered (t : Token) : Token := { t with sign := t.sign.unnumbered }

def ParseCause.unnumbered : ParseCause → ParseCause
  | .unexpectedToken expected found => .unexpectedToken expected found.unnumbered
  | .unexpectedEnd expected => .unexpectedEnd expected
  | .trailingInput found => .trailingInput found.unnumbered

def ScopeCause.unnumbered : ScopeCause → ScopeCause
  | .freeVariable name => .freeVariable name.unnumbered
  | .duplicateBinding name kind first => .duplicateBinding name.unnumbered kind first

def FaultCause.unnumbered : FaultCause → FaultCause
  | .unboundVariable name => .unboundVariable name.unnumbered
  | cause => cause

namespace Problem

/-- The failure without the numbers of names; everything else stays. -/
def unnumbered : Problem → Problem
  | unreadable (.lex e) => unreadable (.lex e)
  | unreadable (.parse e) => unreadable (.parse { e with cause := e.cause.unnumbered })
  | illScoped e => illScoped { e with cause := e.cause.unnumbered }
  | fault f => fault { f with cause := f.cause.unnumbered }

end Problem

/-- What a failure says: what it is, its code, its message, its place and the report on it. -/
structure Notice where
  problem : Problem
  code : ErrorCode
  message : String
  span? : Option Span
  diagnostic : Diagnostic

/-- What a failure says, without the numbers of names. -/
def Problem.notice (p : Problem) : Notice :=
  ⟨p.unnumbered, p.code, p.message, p.span?, p.diagnostic⟩

/-- What is said about a computation without a result; nothing if it lacks fuel only. -/
def Stop.notice? : Stop → Option Notice
  | fault f => some (Problem.fault f).notice
  | outOfFuel => none

/-! ## Observations -/

/-- All that can be seen of a source: its tokens and its end, its printed program, the verdicts of
the checks, and the outcomes and the profiles of its runs. -/
@[ext] structure Observation where
  tokens : Except Notice (List Token × Span)
  program : Except Notice String
  verdict : ScopeMode → Except Notice Unit
  outcome : Nat → Config → Except Notice (Except (Option Notice) String × Counters)

namespace Observation

/-- The tokens of a source and its end. -/
def tokensOf : Except LexError TokenList → Except Notice (List Token × Span)
  | .ok ts => .ok (ts.tokens.map Token.unnumbered, ts.stop)
  | .error e => .error (Problem.unreadable (.lex e)).notice

/-- What can be seen of a source through its expression. -/
def through {α : Type} (view : Expr → Except Notice α) :
    Except SyntaxError (Expr × Interner) → Except Notice α
  | .ok (root, _) => view root
  | .error e => .error (Problem.unreadable e).notice

/-- The verdict of a check. -/
def verdictOf (mode : ScopeMode) (root : Expr) : Except Notice Unit :=
  match checkScopes mode root with
  | .ok () => .ok ()
  | .error e => .error (Problem.illScoped e).notice

/-- The text of a program's value or the reason why there is none, and the profile of the run. -/
def outcomeOf (fuel : Nat) (config : Config) (root : Expr) :
    Except (Option Notice) String × Counters :=
  let report := (runProgram fuel config root).report .empty
  match report.result with
  | .ok text => (.ok text, report.profile)
  | .error stop => (.error stop.notice?, report.profile)

/-- What can be seen of a source whose names join the given table. -/
def ofSource (names : Interner) (source : String) : Observation where
  tokens := tokensOf (TokenList.ofSourceWith names source)
  program := through (fun root => .ok root.print) (Expr.ofSourceWith names source)
  verdict mode := through (verdictOf mode) (Expr.ofSourceWith names source)
  outcome fuel config :=
    through (fun root => .ok (outcomeOf fuel config root)) (Expr.ofSourceWith names source)

end Observation

/-! ## Messages and reports give the texts of names, never their numbers -/

theorem Sign.describe_unnumbered (sign : Sign) : sign.unnumbered.describe = sign.describe := by
  cases sign <;> rfl

namespace Problem

theorem code_unnumbered (p : Problem) : p.unnumbered.code = p.code := by
  rcases p with (_ | ⟨cause, _⟩) | ⟨cause, _⟩ | ⟨cause, _⟩
  · rfl
  all_goals cases cause <;> rfl

theorem message_unnumbered (p : Problem) : p.unnumbered.message = p.message := by
  rcases p with (_ | ⟨cause, _⟩) | ⟨cause, _⟩ | ⟨cause, _⟩
  · rfl
  · cases cause <;> simp [unnumbered, ParseCause.unnumbered, message, SyntaxError.message,
      ParseError.message, Sign.describe_unnumbered]
  all_goals cases cause <;> rfl

theorem span?_unnumbered (p : Problem) : p.unnumbered.span? = p.span? := by
  rcases p with (_ | _) | _ | _ <;> rfl

theorem diagnostic_unnumbered (p : Problem) : p.unnumbered.diagnostic = p.diagnostic := by
  rcases p with (_ | ⟨cause, _⟩) | ⟨cause, _⟩ | ⟨cause, _⟩
  · rfl
  · cases cause <;> simp [unnumbered, ParseCause.unnumbered, diagnostic, SyntaxError.diagnostic,
      ParseError.diagnostic, ParseError.code, ParseError.message, Sign.describe_unnumbered]
  all_goals cases cause <;> rfl

/-- Failures that differ in the numbers of names only say the same. -/
theorem notice_eq {p p' : Problem} (h : p.unnumbered = p'.unnumbered) : p.notice = p'.notice := by
  have hnotice (p : Problem) : p.notice = ⟨p.unnumbered, p.unnumbered.code, p.unnumbered.message,
      p.unnumbered.span?, p.unnumbered.diagnostic⟩ := by
    rw [code_unnumbered, message_unnumbered, span?_unnumbered, diagnostic_unnumbered, notice]
  rw [hnotice p, hnotice p', h]

end Problem

/-! ## Names of two tables -/

/-- Names are told apart by their texts. -/
theorem Interner.same_eq {names : Interner} {a b : Name} (ha : names.get? a.text = some a)
    (hb : names.get? b.text = some b) : a.same b = decide (a.text = b.text) := by
  rw [Bool.eq_iff_iff, Name.same_iff, decide_eq_true_iff]
  constructor
  · intro h
    rw [eq_of_index_eq ha hb h]
  · intro h
    rw [h, hb] at ha
    rw [Option.some.inj ha]

/-- Names that have one text, each in its own table; spans are like themselves only. -/
def Likeness.tables (names names' : Interner) : Likeness where
  name a a' := names.get? a.text = some a ∧ names'.get? a'.text = some a' ∧ a.text = a'.text
  span := Eq
  text_eq h := h.2.2
  same_eq ha hb := by
    rw [Interner.same_eq ha.1 hb.1, Interner.same_eq ha.2.1 hb.2.1, ha.2.2, hb.2.2]
  merge h h' := by rw [h, h']

section

variable {names names' : Interner}

/-- Tokens of one text, interned by both tables. -/
theorem Token.alike_intern (text : String) (span : Span) :
    Token.Alike (.tables (names.intern text).2 (names'.intern text).2)
      ⟨.ident (names.intern text).1, text, span⟩ ⟨.ident (names'.intern text).1, text, span⟩ := by
  refine ⟨.ident ⟨?_, ?_, ?_⟩, rfl, rfl⟩
  · rw [Interner.intern_text, Interner.get?_intern]
  · rw [Interner.intern_text, Interner.get?_intern]
  · rw [Interner.intern_text, Interner.intern_text]

/-- Tokens that are alike stay so when both tables grow. -/
theorem Token.Alike.intern {t t' : Token} (h : t.Alike (.tables names names') t') (s : String) :
    t.Alike (.tables (names.intern s).2 (names'.intern s).2) t' := by
  obtain ⟨sign, text, span⟩ := t
  obtain ⟨sign', text', span'⟩ := t'
  obtain ⟨hsign, htext, hspan⟩ := h
  refine ⟨?_, htext, hspan⟩
  cases hsign with
  | ident hname =>
      obtain ⟨hleft, hright, hsame⟩ := hname
      exact .ident
        ⟨Interner.get?_intern_of_get? hleft s, Interner.get?_intern_of_get? hright s, hsame⟩
  | other hother => exact .other hother

end

/-! ## Failures that are alike say the same -/

section

variable {names names' : Interner}

theorem Sign.Alike.unnumbered_eq {sign sign' : Sign}
    (h : sign.Alike (.tables names names') sign') : sign.unnumbered = sign'.unnumbered := by
  cases h with
  | ident h => simp only [Sign.unnumbered, Name.unnumbered, h.2.2]
  | other => rfl

theorem Token.Alike.unnumbered_eq {t t' : Token} (h : t.Alike (.tables names names') t') :
    t.unnumbered = t'.unnumbered := by
  have hspan : t.span = t'.span := h.span
  simp only [Token.unnumbered, h.sign.unnumbered_eq, h.text, hspan]

theorem ParseError.Alike.notice_eq {e e' : ParseError}
    (h : e.Alike (.tables names names') e') :
    (Problem.unreadable (.parse e)).notice = (Problem.unreadable (.parse e')).notice := by
  refine Problem.notice_eq ?_
  obtain ⟨cause, span⟩ := e
  obtain ⟨cause', span'⟩ := e'
  obtain ⟨hcause, rfl⟩ := h
  cases hcause with
  | unexpectedToken expected h =>
      simp only [Problem.unnumbered, ParseCause.unnumbered, h.unnumbered_eq]
  | unexpectedEnd => rfl
  | trailingInput h => simp only [Problem.unnumbered, ParseCause.unnumbered, h.unnumbered_eq]

theorem ScopeError.Alike.notice_eq {e e' : ScopeError}
    (h : e.Alike (.tables names names') e') :
    (Problem.illScoped e).notice = (Problem.illScoped e').notice := by
  refine Problem.notice_eq ?_
  obtain ⟨cause, span⟩ := e
  obtain ⟨cause', span'⟩ := e'
  obtain ⟨hcause, rfl⟩ := h
  cases hcause with
  | freeVariable h =>
      simp only [Problem.unnumbered, ScopeCause.unnumbered, Name.unnumbered, h.2.2]
  | duplicateBinding kind h hfirst =>
      obtain rfl := hfirst
      simp only [Problem.unnumbered, ScopeCause.unnumbered, Name.unnumbered, h.2.2]

theorem Stop.Alike.notice?_eq {stop stop' : Stop} (h : stop.Alike (.tables names names') stop') :
    stop.notice? = stop'.notice? := by
  cases h with
  | outOfFuel => rfl
  | @fault f f' h =>
      refine congrArg some (Problem.notice_eq ?_)
      obtain ⟨cause, span?⟩ := f
      obtain ⟨cause', span?'⟩ := f'
      obtain ⟨hcause, hspan⟩ := h
      have hsame : span? = span?' := by
        cases hspan with
        | none => rfl
        | some h => rw [h]
      subst hsame
      cases hcause with
      | unbound h =>
          simp only [Problem.unnumbered, FaultCause.unnumbered, Name.unnumbered, h.2.2]
      | other => rfl

end

/-! ## Reading over two tables -/

/-- Token lists that are alike over their own tables. -/
structure TokenList.Alike (ts ts' : TokenList) : Prop where
  tokens : List.Forall₂ (Token.Alike (.tables ts.names ts'.names)) ts.tokens ts'.tokens
  stop : ts.stop = ts'.stop

theorem TokenList.Alike.unnumbered_eq {ts ts' : TokenList} (h : ts.Alike ts') :
    ts.tokens.map Token.unnumbered = ts'.tokens.map Token.unnumbered := by
  rw [← List.forall₂_eq_eq_eq, List.forall₂_map_left_iff, List.forall₂_map_right_iff]
  exact h.tokens.imp fun _ _ ht => ht.unnumbered_eq

/-- A sign that fits every table is no name. -/
theorem Sign.isIdent_of_admits {sign : Sign} (h : ∀ names : Interner, names.Admits sign) :
    sign.isIdent = false := by
  cases sign with
  | ident name =>
      have hknown := (h ⟨#[]⟩).2
      simp [Interner.get?, Interner.indexOf?] at hknown
  | _ => rfl

/-- The same text is read alike behind tokens that are alike. -/
theorem scan_alike (offset : Nat) {names names' : Interner} {done done' : List Token}
    (h : List.Forall₂ (Token.Alike (.tables names names')) done done') (cs : List Char) :
    ExceptRel Eq TokenList.Alike (scan offset names done cs) (scan offset names' done' cs) := by
  induction hlength : cs.length using Nat.strongRecOn
    generalizing offset names names' done done' cs with
  | ind n ih =>
      subst hlength
      cases cs with
      | nil =>
          rw [scan, scan]
          exact .ok ⟨List.rel_reverse h, rfl⟩
      | cons c cs =>
          have hless := cut_rest_length_lt c cs
          -- A token that is no name is the same over both tables.
          have hmore {sign : Sign} (hsign : sign.isIdent = false) (stop text span) :
              ExceptRel Eq TokenList.Alike
                (scan stop names (⟨sign, text, span⟩ :: done) (cut c cs).rest)
                (scan stop names' (⟨sign, text, span⟩ :: done') (cut c cs).rest) :=
            ih _ hless stop (.cons ⟨.other hsign, rfl, rfl⟩ h) _ rfl
          rw [scan, scan]
          cases hshape : (cut c cs).shape with
          | gap => exact ih _ hless _ h _ rfl
          | number =>
              dsimp only
              split
              · exact hmore rfl _ _ _
              · exact .error rfl
          | word =>
              dsimp only
              cases hword : Sign.ofWord? (String.ofList (cut c cs).text) with
              | some sign =>
                  exact hmore (Sign.isIdent_of_admits fun names => ofWord?_admits names hword) _ _ _
              | none =>
                  dsimp only
                  refine ih _ hless _ (.cons (Token.alike_intern _ _) ?_) _ rfl
                  exact h.imp fun _ _ ht => ht.intern _
          | sign sign =>
              exact hmore (Sign.isIdent_of_admits fun names => cut_sign_admits names hshape) _ _ _
          | invalid => exact .error rfl

theorem TokenList.ofSourceWith_alike (names names' : Interner) (source : String) :
    ExceptRel Eq TokenList.Alike (TokenList.ofSourceWith names source)
      (TokenList.ofSourceWith names' source) :=
  scan_alike 0 .nil source.toList

/-- Over two tables a source spells programs that are alike, or fails in the same way. -/
theorem Expr.ofSourceWith_alike (names names' : Interner) (source : String) :
    ExceptRel (fun e e' => (Problem.unreadable e).notice = (Problem.unreadable e').notice)
      (fun r r' => r.1.Alike (.tables r.2 r'.2) r'.1)
      (Expr.ofSourceWith names source) (Expr.ofSourceWith names' source) := by
  have hlex := TokenList.ofSourceWith_alike names names' source
  unfold Expr.ofSourceWith
  generalize TokenList.ofSourceWith names source = result at hlex ⊢
  generalize TokenList.ofSourceWith names' source = result' at hlex ⊢
  cases hlex with
  | error h => exact .error (by rw [h])
  | @ok ts ts' h =>
      have hparse := Expr.ofTokens_alike h.stop h.tokens
      dsimp only
      generalize Expr.ofTokens ts = tree at hparse ⊢
      generalize Expr.ofTokens ts' = tree' at hparse ⊢
      cases hparse with
      | error h => exact .error h.notice_eq
      | ok h => exact .ok h

/-! ## Observations over two tables -/

namespace Observation

theorem tokensOf_eq {result result' : Except LexError TokenList}
    (h : ExceptRel Eq TokenList.Alike result result') : tokensOf result = tokensOf result' := by
  cases h with
  | ok h => simp only [tokensOf, h.unnumbered_eq, h.stop]
  | error h => rw [h]

section

variable {names names' : Interner} {root root' : Expr}

theorem verdictOf_eq (h : root.Alike (.tables names names') root') (mode : ScopeMode) :
    verdictOf mode root = verdictOf mode root' := by
  have hcheck := checkScopes_alike mode h
  unfold verdictOf
  generalize checkScopes mode root = verdict at hcheck ⊢
  generalize checkScopes mode root' = verdict' at hcheck ⊢
  cases hcheck with
  | ok => rfl
  | error h => exact congrArg Except.error h.notice_eq

theorem outcomeOf_eq (h : root.Alike (.tables names names') root') (fuel : Nat)
    (config : Config) : outcomeOf fuel config root = outcomeOf fuel config root' := by
  obtain ⟨hresult, hprofile⟩ := (runProgram_alike fuel config h).report
  unfold outcomeOf
  dsimp only
  rw [← hprofile]
  generalize ((runProgram fuel config root).report .empty).result = result at hresult ⊢
  generalize ((runProgram fuel config root').report .empty).result = result' at hresult ⊢
  cases hresult with
  | ok h => rw [h]
  | error h => simp only [h.notice?_eq]

end

theorem through_eq {α : Type} {view : Expr → Except Notice α}
    (hview : ∀ {names names' root root'}, root.Alike (.tables names names') root' →
      view root = view root') (names names' : Interner) (source : String) :
    through view (Expr.ofSourceWith names source) =
      through view (Expr.ofSourceWith names' source) := by
  have hread := Expr.ofSourceWith_alike names names' source
  generalize Expr.ofSourceWith names source = result at hread ⊢
  generalize Expr.ofSourceWith names' source = result' at hread ⊢
  cases hread with
  | ok h => exact hview h
  | error h => exact congrArg Except.error h

end Observation

/-- Whatever was interned before, in the one table or in the other: a source has the same tokens, is
printed the same, passes or fails the checks for the same reasons, and its runs give the same texts
or the same failures and count the same. -/
theorem history_unobservable (names names' : Interner) (source : String) :
    Observation.ofSource names source = Observation.ofSource names' source := by
  refine Observation.ext ?_ ?_ ?_ ?_
  · exact Observation.tokensOf_eq (TokenList.ofSourceWith_alike names names' source)
  · exact Observation.through_eq (fun h => congrArg Except.ok h.print_eq) names names' source
  · funext mode
    exact Observation.through_eq (fun h => Observation.verdictOf_eq h mode) names names' source
  · funext fuel config
    exact Observation.through_eq
      (fun h => congrArg Except.ok (Observation.outcomeOf_eq h fuel config)) names names' source

/-- The tokens themselves do depend on the table: behind `y`, `x` has another number. -/
example :
    TokenList.ofSourceWith .empty "x" ≠
      TokenList.ofSourceWith (Interner.empty.intern "y").2 "x" := by
  decide +kernel

end PolicyEval
