import PolicyEval.Proofs.Syntax.Lexing

/-!
# The signs of an expression

A printed expression consists of signs, which stand in the same order as the parts of the tree.
Only parentheses depend on the context.

* `Expr.needsParens` — whether an expression is put in parentheses in a context.
* `Expr.signs` — the signs of an expression that stands by itself.
* `lexes_print` — the printed text gives these signs.
-/

namespace PolicyEval

/-- Puts signs in parentheses if asked to. -/
def bracket (wrap : Bool) (signs : List Sign) : List Sign :=
  if wrap then .openParen :: signs ++ [.closeParen] else signs

namespace Expr

/-- Whether an expression is put in parentheses in a context. -/
def needsParens (context : Nat) : Expr → Bool
  | unary .. => decide (unaryContext < context)
  | binary _ op _ _ => decide (op.precedence < context)
  | map .. | cond .. | letIn .. => decide (anyContext < context)
  | _ => false

/-- Whether an expression is put in parentheses as a callee. -/
def needsParensAsCallee (e : Expr) : Bool := e.isConstant || e.needsParens calleeContext

/-- The signs of parameters. -/
def paramSigns : List Binder → List Sign
  | [] => []
  | [p] => [.ident p.name]
  | p :: ps => .ident p.name :: .comma :: paramSigns ps

mutual
/-- The signs of an expression that stands by itself. -/
def signs : Expr → List Sign
  | int _ n => [.int n.toNat]
  | bool _ b => [.bool b]
  | null _ => [.null]
  | ident _ name => [.ident name]
  | prim _ p => [.prim p]
  | unary _ op operand => op.sign :: bracket (operand.needsParens unaryContext) operand.signs
  | binary _ op left right =>
    bracket (left.needsParens op.precedence) left.signs ++
      .operator op :: bracket (right.needsParens (op.precedence + 1)) right.signs
  | call _ callee args =>
    bracket callee.needsParensAsCallee callee.signs ++ .openParen :: argSigns args ++ [.closeParen]
  | map _ params body =>
    .keyword .mapWord :: paramSigns params ++ .keyword .toWord :: body.signs
  | cond _ test yes no =>
    .keyword .ifWord :: test.signs ++ .keyword .thenWord :: yes.signs ++
      .keyword .elseWord :: no.signs
  | letIn _ defs body => .keyword .letWord :: defSigns defs ++ .keyword .inWord :: body.signs

/-- The signs of the arguments of a call. -/
def argSigns : List Expr → List Sign
  | [] => []
  | [e] => e.signs
  | e :: e' :: es => e.signs ++ .comma :: argSigns (e' :: es)

/-- The signs of definitions. -/
def defSigns : List (Binder × Expr) → List Sign
  | [] => []
  | (b, e) :: ds => .ident b.name :: .define :: e.signs ++ .semicolon :: defSigns ds
end

theorem printIn_eq_parenthesize (context : Nat) (e : Expr) :
    e.printIn context = parenthesize (e.needsParens context) (e.printIn anyContext) := by
  cases e with
  | bool p b => cases b <;> rfl
  | binary => simp [printIn, needsParens, parenthesize, anyContext]
  | int | null | ident | prim | call | unary | map | cond | letIn => rfl

theorem parenthesize_callee (e : Expr) :
    parenthesize e.isConstant (e.printIn calleeContext) =
      parenthesize e.needsParensAsCallee (e.printIn anyContext) := by
  rw [printIn_eq_parenthesize, needsParensAsCallee]
  cases e <;> rfl

end Expr

section

variable {names : Interner} {rest : List Char}

/-- A text in parentheses, or not. -/
theorem lexes_parenthesize (wrap : Bool) {text : String} {signs : List Sign}
    (h : ∀ {rest}, IsBoundary rest → Lexes names text.toList signs rest)
    (hrest : IsBoundary rest) :
    Lexes names (Expr.parenthesize wrap text).toList (bracket wrap signs) rest := by
  cases wrap with
  | false => exact h hrest
  | true =>
      have htext : (Expr.parenthesize true text).toList = ['('] ++ text.toList ++ [')'] := by
        simp [Expr.parenthesize, String.toList_append]
      rw [htext]
      exact .append (.append lexes_openParen (h (by simp))) lexes_closeParen

/-- A reserved word and the blank behind it. -/
theorem lexes_keyword_blank (k : Keyword) :
    Lexes names (k.text.toList ++ [' ']) [.keyword k] rest :=
  .append (lexes_keyword k (by simp)) lexes_blank

/-- A reserved word between blanks. -/
theorem lexes_blank_keyword_blank (k : Keyword) :
    Lexes names ([' '] ++ (k.text.toList ++ [' '])) [.keyword k] rest :=
  .append lexes_blank (lexes_keyword_blank k)

/-- Parameters, each with what is behind it. -/
theorem lexes_params {params : List Binder} (h : ∀ b ∈ params, names.Knows b.name) :
    Lexes names (Expr.printParams params).toList (Expr.paramSigns params) rest := by
  match params with
  | [] => exact .nil
  | [p] =>
      rw [Expr.printParams, String.toList_append]
      exact .append (lexes_name (h p List.mem_cons_self) (by simp)) lexes_blank
  | p :: q :: ps =>
      rw [List.forall_mem_cons] at h
      have hparts := Lexes.append (lexes_name h.1 (by simp))
        (.append lexes_comma (.append lexes_blank (lexes_params h.2)))
      exact hparts.congr (by simp [Expr.printParams]) (by simp [Expr.paramSigns])

end

mutual
/-- Reading a printed expression gives its signs. -/
theorem lexes_printIn {names : Interner} {rest : List Char} : (e : Expr) →
    e.Fits names IsLiteral → IsBoundary rest →
      Lexes names (e.printIn Expr.anyContext).toList e.signs rest
  | .int _ n, h, hrest => by
    obtain ⟨m, rfl⟩ := Int.eq_ofNat_of_zero_le h.1
    exact lexes_number (Int.ofNat_le.1 h.2) hrest
  | .bool _ true, _, hrest => lexes_true hrest
  | .bool _ false, _, hrest => lexes_false hrest
  | .null _, _, hrest => lexes_null hrest
  | .ident _ name, h, hrest => lexes_name h hrest
  | .prim _ p, _, hrest => lexes_prim p hrest
  | .unary _ op operand, h, hrest => by
    have hoperand := lexes_parenthesize (operand.needsParens Expr.unaryContext)
      (lexes_printIn operand h) hrest
    refine (lexes_unaryOp op).append hoperand |>.congr ?_ rfl
    rw [← Expr.printIn_eq_parenthesize]
    simp [Expr.printIn, Expr.parenthesize, Expr.anyContext]
  | .binary _ op left right, h, hrest => by
    have hleft := fun {rest} (hrest : IsBoundary rest) =>
      lexes_parenthesize (left.needsParens op.precedence) (lexes_printIn left h.1) hrest
    have hright := lexes_parenthesize (right.needsParens (op.precedence + 1))
      (lexes_printIn right h.2) hrest
    refine (hleft ?_).append (lexes_blank.append ((lexes_operator op).append
      (lexes_blank.append hright))) |>.congr ?_ (by simp [Expr.signs])
    · simp
    · rw [← Expr.printIn_eq_parenthesize, ← Expr.printIn_eq_parenthesize]
      simp [Expr.printIn, Expr.parenthesize, Expr.anyContext]
  | .call _ callee args, h, hrest => by
    have hcallee := fun {rest} (hrest : IsBoundary rest) =>
      lexes_parenthesize callee.needsParensAsCallee (lexes_printIn callee h.1) hrest
    refine (hcallee ?_).append (lexes_openParen.append ((lexes_printArgs args h.2 ?_).append
      lexes_closeParen)) |>.congr ?_ (by simp [Expr.signs])
    · simp
    · simp
    · rw [← Expr.parenthesize_callee]
      simp [Expr.printIn]
  | .map _ params body, h, hrest => by
    have hparts := (lexes_keyword_blank .mapWord).append ((lexes_params h.1).append
      ((lexes_keyword_blank .toWord).append (lexes_printIn body h.2 hrest)))
    refine hparts.congr ?_ (by simp [Expr.signs])
    simp [Expr.printIn, Expr.parenthesize, Keyword.text]
  | .cond _ test yes no, h, hrest => by
    have hparts := (lexes_keyword_blank .ifWord).append ((lexes_printIn test h.1 (by simp)).append
      ((lexes_blank_keyword_blank .thenWord).append ((lexes_printIn yes h.2.1 (by simp)).append
        ((lexes_blank_keyword_blank .elseWord).append (lexes_printIn no h.2.2 hrest)))))
    refine hparts.congr ?_ (by simp [Expr.signs])
    simp [Expr.printIn, Expr.parenthesize, Keyword.text]
  | .letIn _ defs body, h, hrest => by
    have hparts := (lexes_keyword_blank .letWord).append ((lexes_printDefs defs h.2.1).append
      ((lexes_keyword_blank .inWord).append (lexes_printIn body h.2.2 hrest)))
    refine hparts.congr ?_ (by simp [Expr.signs])
    simp [Expr.printIn, Expr.parenthesize, Keyword.text]

/-- Reading printed arguments gives their signs. -/
theorem lexes_printArgs {names : Interner} {rest : List Char} : (es : List Expr) →
    Expr.FitList names IsLiteral es → IsBoundary rest →
      Lexes names (Expr.printArgs es).toList (Expr.argSigns es) rest
  | [], _, _ => .nil
  | [e], h, hrest => lexes_printIn e h.1 hrest
  | e :: e' :: es, h, hrest => by
    have hparts := (lexes_printIn e h.1 (by simp)).append (lexes_comma.append
      (lexes_blank.append (lexes_printArgs (e' :: es) h.2 hrest)))
    exact hparts.congr (by simp [Expr.printArgs]) (by simp [Expr.argSigns])

/-- Reading printed definitions gives their signs. -/
theorem lexes_printDefs {names : Interner} {rest : List Char} : (ds : List (Binder × Expr)) →
    Expr.FitDefs names IsLiteral ds →
      Lexes names (Expr.printDefs ds).toList (Expr.defSigns ds) rest
  | [], _ => .nil
  | (b, e) :: ds, h => by
    have hdefs : Lexes names (Expr.printDefs ds).toList (Expr.defSigns ds) rest :=
      lexes_printDefs ds h.2.2
    have hparts := (lexes_name h.1 (by simp)).append (lexes_blank.append (lexes_define.append
      (lexes_blank.append ((lexes_printIn e h.2.1 (by simp)).append (lexes_semicolon.append
        (lexes_blank.append hdefs))))))
    exact hparts.congr (by simp [Expr.printDefs]) (by simp [Expr.defSigns])
end

/-- A printed expression is cut into tokens with the signs of the expression, over the same names. -/
theorem lexes_print {names : Interner} {e : Expr} (h : e.Fits names IsLiteral) :
    ∃ ts stop, TokenList.ofSourceWith names e.print = .ok ⟨ts, stop, names⟩ ∧
      ts.map Token.sign = e.signs := by
  have hlexes : Lexes names (e.printIn Expr.anyContext).toList e.signs [] :=
    lexes_printIn e h trivial
  obtain ⟨offset, ts, hsigns, hscan⟩ := hlexes 0 []
  refine ⟨ts, Span.saturate offset offset, ?_, hsigns⟩
  rw [List.append_nil] at hscan
  rw [TokenList.ofSourceWith, Expr.print, hscan, scan]
  simp

end PolicyEval
