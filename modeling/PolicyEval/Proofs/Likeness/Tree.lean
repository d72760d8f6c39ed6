import Mathlib.Data.List.Forall2
import PolicyEval.Expr.Printer
import PolicyEval.Token

/-!
# Likeness — programs up to the numbers of their names and up to their spans

Nothing that is done with a program looks at the number of a name except to tell names apart, and
nothing looks at a span except to merge it with another one or to report it.  So two programs that
differ in these respects only are treated alike, as long as their names are told apart alike.

A likeness says which names and which spans correspond.  It need not relate everything: that a span
is like itself may also mean that it has a certain property.

* `Likeness` — which names and which spans are alike.
* `Token.Alike`, `Expr.Alike` — tokens and trees that are alike part by part.
* `Expr.Alike.print_eq` — trees that are alike have the same text.
-/

namespace PolicyEval

/-- Which names and which spans are alike.  Names that are alike are spelled alike and told apart
alike. -/
structure Likeness where
  name : Name → Name → Prop
  span : Span → Span → Prop
  text_eq : ∀ {a a'}, name a a' → a.text = a'.text
  same_eq : ∀ {a a' b b'}, name a a' → name b b' → a.same b = a'.same b'
  merge : ∀ {s s' t t'}, span s s' → span t t' → span (s.merge t) (s'.merge t')

/-! ## Tokens -/

/-- Whether the sign is a name. -/
def Sign.isIdent : Sign → Bool
  | .ident _ => true
  | _ => false

/-- Names that are alike, or one sign that is no name. -/
inductive Sign.Alike (L : Likeness) : Sign → Sign → Prop
  | ident {name name' : Name} (h : L.name name name') : Alike L (.ident name) (.ident name')
  | other {sign : Sign} (h : sign.isIdent = false) : Alike L sign sign

/-- Signs that are alike, read from the same text at places that are alike. -/
structure Token.Alike (L : Likeness) (t t' : Token) : Prop where
  sign : t.sign.Alike L t'.sign
  text : t.text = t'.text
  span : L.span t.span t'.span

section

variable {L : Likeness}

theorem Sign.Alike.eq_iff {s s' sign : Sign} (h : s.Alike L s') (hsign : sign.isIdent = false) :
    s = sign ↔ s' = sign := by
  cases h with
  | ident h =>
      constructor
      · rintro rfl
        cases hsign
      · rintro rfl
        cases hsign
  | other => exact Iff.rfl

end

/-! ## Trees -/

/-- Nodes with the same number at places that are alike. -/
structure Place.Alike (L : Likeness) (p p' : Place) : Prop where
  id : p.id = p'.id
  span : L.span p.span p'.span

/-- Names that are alike, bound at places that are alike. -/
structure Binder.Alike (L : Likeness) (b b' : Binder) : Prop where
  name : L.name b.name b'.name
  span : L.span b.span b'.span

mutual
/-- Trees that are alike part by part. -/
inductive Expr.Alike (L : Likeness) : Expr → Expr → Prop
  | int {p p' : Place} (n : Int) (hp : p.Alike L p') : Alike L (.int p n) (.int p' n)
  | bool {p p' : Place} (b : Bool) (hp : p.Alike L p') : Alike L (.bool p b) (.bool p' b)
  | null {p p' : Place} (hp : p.Alike L p') : Alike L (.null p) (.null p')
  | ident {p p' : Place} {name name' : Name} (hp : p.Alike L p') (hname : L.name name name') :
      Alike L (.ident p name) (.ident p' name')
  | prim {p p' : Place} (q : Prim) (hp : p.Alike L p') : Alike L (.prim p q) (.prim p' q)
  | unary {p p' : Place} (op : UnaryOp) {e e' : Expr} (hp : p.Alike L p') (he : Alike L e e') :
      Alike L (.unary p op e) (.unary p' op e')
  | binary {p p' : Place} (op : BinaryOp) {left left' right right' : Expr} (hp : p.Alike L p')
      (hleft : Alike L left left') (hright : Alike L right right') :
      Alike L (.binary p op left right) (.binary p' op left' right')
  | call {p p' : Place} {callee callee' : Expr} {args args' : List Expr} (hp : p.Alike L p')
      (hcallee : Alike L callee callee') (hargs : Expr.ListAlike L args args') :
      Alike L (.call p callee args) (.call p' callee' args')
  | map {p p' : Place} {params params' : List Binder} {body body' : Expr} (hp : p.Alike L p')
      (hparams : List.Forall₂ (Binder.Alike L) params params') (hbody : Alike L body body') :
      Alike L (.map p params body) (.map p' params' body')
  | cond {p p' : Place} {test test' yes yes' no no' : Expr} (hp : p.Alike L p')
      (htest : Alike L test test') (hyes : Alike L yes yes') (hno : Alike L no no') :
      Alike L (.cond p test yes no) (.cond p' test' yes' no')
  | letIn {p p' : Place} {defs defs' : List (Binder × Expr)} {body body' : Expr}
      (hp : p.Alike L p') (hdefs : Expr.DefsAlike L defs defs') (hbody : Alike L body body') :
      Alike L (.letIn p defs body) (.letIn p' defs' body')

/-- Trees that are alike one by one. -/
inductive Expr.ListAlike (L : Likeness) : List Expr → List Expr → Prop
  | nil : ListAlike L [] []
  | cons {e e' : Expr} {es es' : List Expr} (he : Expr.Alike L e e')
      (hes : Expr.ListAlike L es es') : ListAlike L (e :: es) (e' :: es')

/-- Definitions that are alike one by one. -/
inductive Expr.DefsAlike (L : Likeness) : List (Binder × Expr) → List (Binder × Expr) → Prop
  | nil : DefsAlike L [] []
  | cons {b b' : Binder} {e e' : Expr} {ds ds' : List (Binder × Expr)} (hb : b.Alike L b')
      (he : Expr.Alike L e e') (hds : Expr.DefsAlike L ds ds') :
      DefsAlike L ((b, e) :: ds) ((b', e') :: ds')
end

namespace Expr

variable {L : Likeness}

theorem Alike.place {e e' : Expr} (h : e.Alike L e') : e.place.Alike L e'.place := by
  cases h <;> assumption

theorem Alike.span {e e' : Expr} (h : e.Alike L e') : L.span e.span e'.span := h.place.span

theorem Alike.isConstant_eq {e e' : Expr} (h : e.Alike L e') : e.isConstant = e'.isConstant := by
  cases h <;> rfl

theorem ListAlike.length_eq {es es' : List Expr} (h : ListAlike L es es') :
    es.length = es'.length := by
  induction es generalizing es' with
  | nil => cases h; rfl
  | cons e es ih =>
      cases h with
      | cons _ hes => rw [List.length_cons, List.length_cons, ih hes]

theorem ListAlike.append {es es' fs fs' : List Expr} (h : ListAlike L es es')
    (h' : ListAlike L fs fs') : ListAlike L (es ++ fs) (es' ++ fs') := by
  induction es generalizing es' with
  | nil => cases h; exact h'
  | cons e es ih =>
      cases h with
      | cons he hes => exact .cons he (ih hes)

theorem DefsAlike.inits {ds ds' : List (Binder × Expr)} (h : DefsAlike L ds ds') :
    ListAlike L (ds.map Prod.snd) (ds'.map Prod.snd) := by
  induction ds generalizing ds' with
  | nil => cases h; exact .nil
  | cons d ds ih =>
      cases h with
      | cons _ he hds => exact .cons he (ih hds)

theorem DefsAlike.binders {ds ds' : List (Binder × Expr)} (h : DefsAlike L ds ds') :
    List.Forall₂ (Binder.Alike L) (ds.map Prod.fst) (ds'.map Prod.fst) := by
  induction ds generalizing ds' with
  | nil => cases h; exact .nil
  | cons d ds ih =>
      cases h with
      | cons hb _ hds => exact .cons hb (ih hds)

/-! ## Printing -/

theorem printParams_eq {params params' : List Binder}
    (h : List.Forall₂ (Binder.Alike L) params params') :
    printParams params = printParams params' := by
  induction h with
  | nil => rfl
  | cons hb hps ih =>
      cases hps with
      | nil => simp only [printParams, L.text_eq hb.name]
      | cons => simp only [printParams, L.text_eq hb.name] at ih ⊢; rw [ih]

mutual
theorem Alike.printIn_eq (context : Nat) : (e : Expr) → {e' : Expr} → e.Alike L e' →
    e.printIn context = e'.printIn context
  | .int .., _, h | .null _, _, h | .prim .., _, h => by cases h; rfl
  | .bool _ b, _, h => by cases h; cases b <;> rfl
  | .ident .., _, h => by
      cases h with
      | ident _ hname => simp only [printIn, L.text_eq hname]
  | .unary _ _ e, _, h => by
      cases h with
      | unary op _ he => simp only [printIn, he.printIn_eq _ e]
  | .binary _ _ left right, _, h => by
      cases h with
      | binary op _ hleft hright =>
          simp only [printIn, hleft.printIn_eq _ left, hright.printIn_eq _ right]
  | .call _ callee args, _, h => by
      cases h with
      | call _ hcallee hargs =>
          simp only [printIn, hcallee.isConstant_eq, hcallee.printIn_eq _ callee,
            hargs.printArgs_eq args]
  | .map _ _ body, _, h => by
      cases h with
      | map _ hparams hbody => simp only [printIn, printParams_eq hparams, hbody.printIn_eq _ body]
  | .cond _ test yes no, _, h => by
      cases h with
      | cond _ htest hyes hno =>
          simp only [printIn, htest.printIn_eq _ test, hyes.printIn_eq _ yes, hno.printIn_eq _ no]
  | .letIn _ defs body, _, h => by
      cases h with
      | letIn _ hdefs hbody => simp only [printIn, hdefs.printDefs_eq defs, hbody.printIn_eq _ body]

theorem ListAlike.printArgs_eq : (es : List Expr) → {es' : List Expr} → ListAlike L es es' →
    printArgs es = printArgs es'
  | [], _, h => by cases h; rfl
  | e :: es, _, h => by
      cases h with
      | cons he hes =>
          have hrest := hes.printArgs_eq es
          cases hes with
          | nil => simp only [printArgs, he.printIn_eq _ e]
          | cons => simp only [printArgs, he.printIn_eq _ e, hrest]

theorem DefsAlike.printDefs_eq : (ds : List (Binder × Expr)) → {ds' : List (Binder × Expr)} →
    DefsAlike L ds ds' → printDefs ds = printDefs ds'
  | [], _, h => by cases h; rfl
  | (b, e) :: ds, _, h => by
      cases h with
      | cons hb he hds =>
          simp only [printDefs, L.text_eq hb.name, he.printIn_eq _ e, hds.printDefs_eq ds]
end

/-- Trees that are alike have the same text. -/
theorem Alike.print_eq {e e' : Expr} (h : e.Alike L e') : e.print = e'.print := h.printIn_eq _ e

end Expr

end PolicyEval
