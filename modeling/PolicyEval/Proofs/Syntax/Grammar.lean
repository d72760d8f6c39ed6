import PolicyEval.Expr.Parser
import PolicyEval.Proofs.Syntax.Signs

/-!
# The grammar of expressions

```text
exp     ::= if exp then exp else exp
          | let (id := exp ;)+ in exp
          | map [id (, id)*] to exp
          | binary
binary  ::= term (binop operand)*
operand ::= term | if ... | let ... | map ...
term    ::= unop term | constant | factor ( '(' [exp (, exp)*] ')' )*
factor  ::= '(' exp ')' | prim | id
```

The grammar says which signs form an expression, but not how operators group: `1 - 2 * 3` is one
chain of operands.  A phrase is a way to group signs, and it is conventional if it follows the rules
of precedence.  Every expression of the grammar has a conventional phrase, since one more operator
and operand can always be attached to a conventional phrase at the right place.

* `Derives` — the grammar.
* `Phrase` — signs that are grouped.
* `Phrase.expr` — the tree that a phrase stands for; parentheses make no node.
* `BinaryOp.ladder` — the order of the levels of precedence.
* `Phrase.IsConventional` — the rules of precedence, of calls and of forms that extend to the right.
* `Phrase.attach` — a phrase with one more operator and operand behind it.
* `Derives.exists_phrase` — every expression of the grammar is grouped by a conventional phrase.
-/

namespace PolicyEval

/-! ## The grammar -/

/-- The categories of the grammar.  An `application` is a factor with its argument lists. -/
inductive Category where
  | exp | openForm | definitions | binary | operand | term | application | arguments | factor
deriving DecidableEq

/-- Signs that belong to a category. -/
inductive Derives : Category → List Sign → Prop where
  | formExp {s} : Derives .openForm s → Derives .exp s
  | binaryExp {s} : Derives .binary s → Derives .exp s
  | cond {test yes no} : Derives .exp test → Derives .exp yes → Derives .exp no →
      Derives .openForm (.keyword .ifWord :: test ++ .keyword .thenWord :: yes ++
        .keyword .elseWord :: no)
  | letIn {defs body} : Derives .definitions defs → Derives .exp body →
      Derives .openForm (.keyword .letWord :: defs ++ .keyword .inWord :: body)
  | map {body} (params : List Name) : Derives .exp body →
      Derives .openForm (.keyword .mapWord :: (params.map .ident).intersperse .comma ++
        .keyword .toWord :: body)
  | definition {init} (name : Name) : Derives .exp init →
      Derives .definitions (.ident name :: .define :: init ++ [.semicolon])
  | moreDefinitions {init defs} (name : Name) : Derives .exp init → Derives .definitions defs →
      Derives .definitions (.ident name :: .define :: init ++ .semicolon :: defs)
  | firstTerm {s} : Derives .term s → Derives .binary s
  | operation {s t} (op : BinaryOp) : Derives .binary s → Derives .operand t →
      Derives .binary (s ++ .operator op :: t)
  | termOperand {s} : Derives .term s → Derives .operand s
  | formOperand {s} : Derives .openForm s → Derives .operand s
  | unary {s} (op : UnaryOp) : Derives .term s → Derives .term (op.sign :: s)
  | int (n : Nat) : Derives .term [.int n]
  | bool (b : Bool) : Derives .term [.bool b]
  | null : Derives .term [.null]
  | application {s} : Derives .application s → Derives .term s
  | callee {s} : Derives .factor s → Derives .application s
  | callNone {s} : Derives .application s → Derives .application (s ++ [.openParen, .closeParen])
  | call {s args} : Derives .application s → Derives .arguments args →
      Derives .application (s ++ .openParen :: args ++ [.closeParen])
  | argument {s} : Derives .exp s → Derives .arguments s
  | moreArguments {s args} : Derives .exp s → Derives .arguments args →
      Derives .arguments (s ++ .comma :: args)
  | group {s} : Derives .exp s → Derives .factor (.openParen :: s ++ [.closeParen])
  | prim (p : Prim) : Derives .factor [.prim p]
  | ident (name : Name) : Derives .factor [.ident name]

/-- A chain of operands goes on with another chain. -/
theorem Derives.append {s t : List Sign} (op : BinaryOp) (hs : Derives .binary s)
    (ht : Derives .binary t) : Derives .binary (s ++ .operator op :: t) := by
  generalize hcategory : Category.binary = category at ht
  induction ht with
  | firstTerm hterm => exact .operation op hs (.termOperand hterm)
  | @operation s' t' op' _ hoperand ih _ =>
      have happend := Derives.operation op' (ih rfl) hoperand
      simpa only [List.append_assoc, List.cons_append] using happend
  | _ => cases hcategory

/-! ## Levels of precedence -/

/-- The binary operators by level, the loosest ones first. -/
def BinaryOp.ladder : List (List BinaryOp) :=
  [[.or], [.and], [.eq, .ne, .lt, .gt, .le, .ge], [.add, .sub], [.mul, .div]]

/-- Every operator stands on one rung, and its level is the height of that rung. -/
theorem BinaryOp.mem_ladder_iff {op : BinaryOp} {height : Nat} :
    (∃ rung, ladder[height]? = some rung ∧ op ∈ rung) ↔ op.precedence = height + 1 := by
  match height with
  | 0 | 1 | 2 | 3 | 4 => cases op <;> simp [ladder, precedence]
  | n + 5 => cases op <;> simp [ladder, precedence]

/-! ## Phrases -/

/-- Signs that are grouped. -/
inductive Phrase where
  | int (n : Nat)
  | bool (b : Bool)
  | null
  | ident (name : Name)
  | prim (p : Prim)
  | group (inner : Phrase)
  | unary (op : UnaryOp) (operand : Phrase)
  | binary (op : BinaryOp) (left right : Phrase)
  | call (callee : Phrase) (args : List Phrase)
  | map (params : List Name) (body : Phrase)
  | cond (test yes no : Phrase)
  | letIn (defs : List (Name × Phrase)) (body : Phrase)
deriving Inhabited

namespace Phrase

mutual
/-- The signs of a phrase in order. -/
def signs : Phrase → List Sign
  | int n => [.int n]
  | bool b => [.bool b]
  | null => [.null]
  | ident name => [.ident name]
  | prim p => [.prim p]
  | group inner => .openParen :: inner.signs ++ [.closeParen]
  | unary op operand => op.sign :: operand.signs
  | binary op left right => left.signs ++ .operator op :: right.signs
  | call callee args => callee.signs ++ .openParen :: argSigns args ++ [.closeParen]
  | map params body =>
    .keyword .mapWord :: (params.map .ident).intersperse .comma ++ .keyword .toWord :: body.signs
  | cond test yes no =>
    .keyword .ifWord :: test.signs ++ .keyword .thenWord :: yes.signs ++
      .keyword .elseWord :: no.signs
  | letIn defs body => .keyword .letWord :: defSigns defs ++ .keyword .inWord :: body.signs

/-- The signs of arguments. -/
def argSigns : List Phrase → List Sign
  | [] => []
  | [c] => c.signs
  | c :: c' :: cs => c.signs ++ .comma :: argSigns (c' :: cs)

/-- The signs of definitions. -/
def defSigns : List (Name × Phrase) → List Sign
  | [] => []
  | (name, c) :: ds => .ident name :: .define :: c.signs ++ .semicolon :: defSigns ds
end

/-- The place of every node of a tree without numbers and spans. -/
def noPlace : Place := ⟨0, ⟨0, 0⟩⟩

mutual
/-- The tree that a phrase stands for, without numbers and spans. -/
def expr : Phrase → Expr
  | int n => .int noPlace n
  | bool b => .bool noPlace b
  | null => .null noPlace
  | ident name => .ident noPlace name
  | prim p => .prim noPlace p
  | group inner => inner.expr
  | unary op operand => .unary noPlace op operand.expr
  | binary op left right => .binary noPlace op left.expr right.expr
  | call callee args => .call noPlace callee.expr (exprs args)
  | map params body => .map noPlace (params.map fun name => ⟨name, ⟨0, 0⟩⟩) body.expr
  | cond test yes no => .cond noPlace test.expr yes.expr no.expr
  | letIn defs body => .letIn noPlace (defExprs defs) body.expr

/-- The trees of arguments. -/
def exprs : List Phrase → List Expr
  | [] => []
  | c :: cs => c.expr :: exprs cs

/-- The definitions that their phrases stand for. -/
def defExprs : List (Name × Phrase) → List (Binder × Expr)
  | [] => []
  | (name, c) :: ds => (⟨name, ⟨0, 0⟩⟩, c.expr) :: defExprs ds
end

/-! ## Conventional phrases -/

/-- Whether a phrase is an `if`, `let` or `map`. -/
def isForm : Phrase → Bool
  | map .. | cond .. | letIn .. => true
  | _ => false

/-- Whether the last part of a phrase is an `if`, `let` or `map`, at any depth of operands. -/
def endsInForm : Phrase → Bool
  | map .. | cond .. | letIn .. => true
  | binary _ _ right => right.endsInForm
  | _ => false

/-- Whether a phrase is a term of the grammar, so that it stands behind a unary operator. -/
def isTerm : Phrase → Bool
  | binary .. | map .. | cond .. | letIn .. => false
  | _ => true

/-- Whether a phrase is a factor with argument lists, so that it can be called. -/
def isApplication : Phrase → Bool
  | ident _ | prim _ | group _ | call .. => true
  | _ => false

/-- A binary operator at the top of the phrase has a level of at least `level`. -/
def Binds (level : Nat) : Phrase → Prop
  | binary op _ _ => level ≤ op.precedence
  | _ => True

mutual
/-- The phrase follows the rules:

* a unary operator stands in front of a term, so it binds tighter than any binary one;
* operators at the top of operands bind tighter, or as tight on the left, so that equal levels
  group to the left; how tight an operator binds is its height in `BinaryOp.ladder`;
* no left operand ends in an `if`, `let` or `map`, since that form could extend further;
* callees are factors, or calls of them;
* a `let` defines something. -/
def IsConventional : Phrase → Prop
  | int _ | bool _ | null | ident _ | prim _ => True
  | group inner => inner.IsConventional
  | unary _ operand => operand.isTerm = true ∧ operand.IsConventional
  | binary op left right =>
    left.endsInForm = false ∧ left.Binds op.precedence ∧ right.Binds (op.precedence + 1) ∧
      left.IsConventional ∧ right.IsConventional
  | call callee args =>
    callee.isApplication = true ∧ callee.IsConventional ∧ AreConventional args
  | map _ body => body.IsConventional
  | cond test yes no => test.IsConventional ∧ yes.IsConventional ∧ no.IsConventional
  | letIn defs body => defs ≠ [] ∧ DefsAreConventional defs ∧ body.IsConventional

/-- All arguments follow the rules. -/
def AreConventional : List Phrase → Prop
  | [] => True
  | c :: cs => c.IsConventional ∧ AreConventional cs

/-- All right-hand sides of definitions follow the rules. -/
def DefsAreConventional : List (Name × Phrase) → Prop
  | [] => True
  | (_, c) :: ds => c.IsConventional ∧ DefsAreConventional ds
end

theorem Binds.mono {level level' : Nat} {c : Phrase} (h : c.Binds level)
    (hle : level' ≤ level) : c.Binds level' := by
  cases c with
  | binary op _ _ => exact Nat.le_trans hle h
  | _ => trivial

theorem isTerm_of_isApplication {c : Phrase} (h : c.isApplication = true) : c.isTerm = true := by
  cases c <;> first | rfl | cases h

theorem endsInForm_eq_false_of_isTerm {c : Phrase} (h : c.isTerm = true) :
    c.endsInForm = false := by
  cases c <;> first | rfl | cases h

theorem binds_of_isTerm {c : Phrase} (h : c.isTerm = true) (level : Nat) : c.Binds level := by
  cases c <;> trivial

/-! ## One more operand -/

/-- The phrase with one more operator and operand behind it.  A form at the end of the phrase takes
them, else they go below the operators that bind less tight. -/
def attach (op : BinaryOp) (operand : Phrase) : Phrase → Phrase
  | map params body => map params (attach op operand body)
  | cond test yes no => cond test yes (attach op operand no)
  | letIn defs body => letIn defs (attach op operand body)
  | binary op' left right =>
    if right.endsInForm = true ∨ op'.precedence < op.precedence then
      binary op' left (attach op operand right)
    else binary op (binary op' left right) operand
  | c => binary op c operand

variable {op : BinaryOp} {operand : Phrase}

theorem attach_of_isTerm {c : Phrase} (h : c.isTerm = true) :
    attach op operand c = binary op c operand := by
  cases c <;> first | rfl | cases h

theorem signs_attach (c : Phrase) :
    (attach op operand c).signs = c.signs ++ .operator op :: operand.signs := by
  induction c using Phrase.attach.induct op with
  | case1 | case2 | case3 => simp_all [attach, signs]
  | case4 op' left right h ih => simp [attach, h, signs, ih]
  | case5 op' left right h => simp [attach, h, signs]
  | case6 c =>
    cases c <;> simp_all [attach, signs]

/-- Attaching to a form, or to a phrase that ends in one, leaves the operator at the top. -/
theorem Binds.attach {level : Nat} {c : Phrase} (h : c.Binds level)
    (hop : c.endsInForm = false → level ≤ op.precedence) :
    (Phrase.attach op operand c).Binds level := by
  cases c with
  | binary op' left right =>
      simp only [Phrase.attach]
      split
      · exact h
      · next hnot =>
          refine hop ?_
          simpa [endsInForm] using fun hform => hnot (.inl hform)
  | map | cond | letIn => trivial
  | _ => exact hop rfl

/-- One more operand, which is a term or a form, keeps the rules. -/
theorem IsConventional.attach {c : Phrase} (h : c.IsConventional)
    (hoperand : operand.IsConventional) (hterm : operand.Binds (op.precedence + 1)) :
    (Phrase.attach op operand c).IsConventional := by
  induction c using Phrase.attach.induct op with
  | case1 params body ih => exact ih h
  | case2 test yes no ih => exact ⟨h.1, h.2.1, ih h.2.2⟩
  | case3 defs body ih => exact ⟨h.1, h.2.1, ih h.2.2⟩
  | case4 op' left right hinside ih =>
      obtain ⟨hend, hleft, hright, hl, hr⟩ := h
      rw [Phrase.attach, if_pos hinside]
      refine ⟨hend, hleft, hright.attach ?_, hl, ih hr⟩
      intro hclosed
      exact hinside.resolve_left (by simp [hclosed])
  | case5 op' left right houtside =>
      rw [Phrase.attach, if_neg houtside]
      refine ⟨?_, ?_, hterm, h, hoperand⟩
      · simpa [endsInForm] using fun hform => houtside (.inl hform)
      · exact Nat.not_lt.1 fun hlt => houtside (.inr hlt)
  | case6 c hmap hcond hlet hbinary =>
      have hisTerm : c.isTerm = true := by
        cases c <;> simp_all [isTerm]
      rw [attach_of_isTerm hisTerm]
      exact ⟨endsInForm_eq_false_of_isTerm hisTerm, binds_of_isTerm hisTerm _, hterm, h, hoperand⟩

end Phrase

/-! ## Every expression has a conventional phrase -/

/-- What groups the signs of a category. -/
def Category.IsGrouped (signs : List Sign) : Category → Prop
  | .exp => ∃ c : Phrase, c.IsConventional ∧ c.signs = signs
  | .openForm => ∃ c : Phrase, c.isForm = true ∧ c.IsConventional ∧ c.signs = signs
  | .definitions => ∃ ds, ds ≠ [] ∧ Phrase.DefsAreConventional ds ∧ Phrase.defSigns ds = signs
  | .binary => ∃ c : Phrase, c.IsConventional ∧ c.signs = signs
  | .operand => ∃ c : Phrase, (∀ level, c.Binds level) ∧ c.IsConventional ∧ c.signs = signs
  | .term => ∃ c : Phrase, c.isTerm = true ∧ c.IsConventional ∧ c.signs = signs
  | .application | .factor =>
    ∃ c : Phrase, c.isApplication = true ∧ c.IsConventional ∧ c.signs = signs
  | .arguments => ∃ cs, cs ≠ [] ∧ Phrase.AreConventional cs ∧ Phrase.argSigns cs = signs

theorem Derives.isGrouped {category : Category} {signs : List Sign} (h : Derives category signs) :
    category.IsGrouped signs := by
  induction h with
  | formExp _ ih =>
      obtain ⟨c, -, hc, hsigns⟩ := ih
      exact ⟨c, hc, hsigns⟩
  | binaryExp _ ih => exact ih
  | cond _ _ _ htest hyes hno =>
      obtain ⟨test, htest, rfl⟩ := htest
      obtain ⟨yes, hyes, rfl⟩ := hyes
      obtain ⟨no, hno, rfl⟩ := hno
      exact ⟨.cond test yes no, rfl, ⟨htest, hyes, hno⟩, rfl⟩
  | letIn _ _ hdefs hbody =>
      obtain ⟨defs, hne, hdefs, rfl⟩ := hdefs
      obtain ⟨body, hbody, rfl⟩ := hbody
      exact ⟨.letIn defs body, rfl, ⟨hne, hdefs, hbody⟩, rfl⟩
  | map params _ hbody =>
      obtain ⟨body, hbody, rfl⟩ := hbody
      exact ⟨.map params body, rfl, hbody, rfl⟩
  | definition name _ hinit =>
      obtain ⟨init, hinit, rfl⟩ := hinit
      exact ⟨[(name, init)], List.cons_ne_nil _ _, ⟨hinit, trivial⟩, rfl⟩
  | moreDefinitions name _ _ hinit hdefs =>
      obtain ⟨init, hinit, rfl⟩ := hinit
      obtain ⟨defs, -, hdefs, rfl⟩ := hdefs
      exact ⟨(name, init) :: defs, List.cons_ne_nil _ _, ⟨hinit, hdefs⟩, rfl⟩
  | firstTerm _ ih =>
      obtain ⟨c, -, hc, hsigns⟩ := ih
      exact ⟨c, hc, hsigns⟩
  -- The new operand goes as far to the right as the operators before it leave room for.
  | operation op _ _ hleft hright =>
      obtain ⟨c, hc, rfl⟩ := hleft
      obtain ⟨operand, hbinds, hoperand, rfl⟩ := hright
      exact ⟨.attach op operand c, hc.attach hoperand (hbinds _), Phrase.signs_attach c⟩
  | termOperand _ ih =>
      obtain ⟨c, hterm, hc, hsigns⟩ := ih
      exact ⟨c, Phrase.binds_of_isTerm hterm, hc, hsigns⟩
  | formOperand _ ih =>
      obtain ⟨c, hform, hc, hsigns⟩ := ih
      refine ⟨c, fun level => ?_, hc, hsigns⟩
      cases c <;> trivial
  | unary op _ ih =>
      obtain ⟨c, hterm, hc, rfl⟩ := ih
      exact ⟨.unary op c, rfl, ⟨hterm, hc⟩, rfl⟩
  | int n => exact ⟨.int n, rfl, trivial, rfl⟩
  | bool b => exact ⟨.bool b, rfl, trivial, rfl⟩
  | null => exact ⟨.null, rfl, trivial, rfl⟩
  | application _ ih =>
      obtain ⟨c, happlication, hc, hsigns⟩ := ih
      exact ⟨c, Phrase.isTerm_of_isApplication happlication, hc, hsigns⟩
  | callee _ ih => exact ih
  | callNone _ ih =>
      obtain ⟨c, happlication, hc, rfl⟩ := ih
      exact ⟨.call c [], rfl, ⟨happlication, hc, trivial⟩, by simp [Phrase.signs, Phrase.argSigns]⟩
  | call _ _ hcallee hargs =>
      obtain ⟨c, happlication, hc, rfl⟩ := hcallee
      obtain ⟨args, -, hargs, rfl⟩ := hargs
      exact ⟨.call c args, rfl, ⟨happlication, hc, hargs⟩, rfl⟩
  | argument _ ih =>
      obtain ⟨c, hc, rfl⟩ := ih
      exact ⟨[c], List.cons_ne_nil _ _, ⟨hc, trivial⟩, rfl⟩
  | moreArguments _ _ harg hargs =>
      obtain ⟨c, hc, rfl⟩ := harg
      obtain ⟨args, hne, hargs, rfl⟩ := hargs
      obtain ⟨c', cs, rfl⟩ := List.exists_cons_of_ne_nil hne
      exact ⟨c :: c' :: cs, List.cons_ne_nil _ _, ⟨hc, hargs⟩, rfl⟩
  | group _ ih =>
      obtain ⟨c, hc, rfl⟩ := ih
      exact ⟨.group c, rfl, hc, rfl⟩
  | prim p => exact ⟨.prim p, rfl, trivial, rfl⟩
  | ident name => exact ⟨.ident name, rfl, trivial, rfl⟩

/-- Every expression of the grammar is grouped by a conventional phrase. -/
theorem Derives.exists_phrase {signs : List Sign} (h : Derives .exp signs) :
    ∃ c : Phrase, c.IsConventional ∧ c.signs = signs :=
  h.isGrouped

end PolicyEval
