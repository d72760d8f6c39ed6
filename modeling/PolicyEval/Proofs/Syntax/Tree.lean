import PolicyEval.Expr.Printer
import PolicyEval.Token.LexError

/-!
# Trees without their places

Two trees say the same if they differ in their places only: the numbers of their nodes and the spans
in the source.  In a tree that was read from a source the numbers count the nodes in post-order, so
they follow from the rest of the tree.

No source spells a negative integer in one piece.  It is printed with a sign, and read as a unary
minus in front of a natural number.

* `Expr.bare` — the tree without numbers and spans.
* `Expr.withoutSpans` — the tree with its numbers, but without spans.
* `Expr.IsNumbered` — the numbers count the nodes in post-order.
* `Expr.spelled` — the tree as it is spelled, with unary minus for negative integers.
* `Expr.print_eq_of_bare_eq`, `Expr.print_spelled` — none of this shows in print.
-/

namespace PolicyEval

namespace Expr

/-! ## Places -/

/-- A binder without its span. -/
def bareBinder (b : Binder) : Binder := ⟨b.name, ⟨0, 0⟩⟩

mutual
/-- The tree with its places changed by `f`, and without the spans of its binders. -/
def relocate (f : Place → Place) : Expr → Expr
  | int p n => int (f p) n
  | bool p b => bool (f p) b
  | null p => null (f p)
  | ident p name => ident (f p) name
  | prim p q => prim (f p) q
  | unary p op operand => unary (f p) op (operand.relocate f)
  | binary p op left right => binary (f p) op (left.relocate f) (right.relocate f)
  | call p callee args => call (f p) (callee.relocate f) (relocateList f args)
  | map p params body => map (f p) (params.map bareBinder) (body.relocate f)
  | cond p test yes no => cond (f p) (test.relocate f) (yes.relocate f) (no.relocate f)
  | letIn p defs body => letIn (f p) (relocateDefs f defs) (body.relocate f)

/-- Several trees with their places changed by `f`. -/
def relocateList (f : Place → Place) : List Expr → List Expr
  | [] => []
  | e :: es => e.relocate f :: relocateList f es

/-- Definitions with the places of their right-hand sides changed by `f`. -/
def relocateDefs (f : Place → Place) : List (Binder × Expr) → List (Binder × Expr)
  | [] => []
  | (b, e) :: ds => (bareBinder b, e.relocate f) :: relocateDefs f ds
end

/-- The tree without numbers and spans. -/
def bare (e : Expr) : Expr := e.relocate fun _ => ⟨0, ⟨0, 0⟩⟩

/-- Several trees without numbers and spans. -/
def bareList (es : List Expr) : List Expr := relocateList (fun _ => ⟨0, ⟨0, 0⟩⟩) es

/-- Definitions without numbers and spans. -/
def bareDefs (ds : List (Binder × Expr)) : List (Binder × Expr) :=
  relocateDefs (fun _ => ⟨0, ⟨0, 0⟩⟩) ds

/-- The tree without spans. -/
def withoutSpans (e : Expr) : Expr := e.relocate fun p => ⟨p.id, ⟨0, 0⟩⟩

mutual
theorem size_relocate (f : Place → Place) : (e : Expr) → (e.relocate f).size = e.size
  | int .. | bool .. | null _ | ident .. | prim .. => rfl
  | unary _ _ operand => by simp only [relocate, size, size_relocate f operand]
  | binary _ _ left right => by
    simp only [relocate, size, size_relocate f left, size_relocate f right]
  | call _ callee args => by
    simp only [relocate, size, size_relocate f callee, sizeList_relocate f args]
  | map _ _ body => by simp only [relocate, size, size_relocate f body]
  | cond _ test yes no => by
    simp only [relocate, size, size_relocate f test, size_relocate f yes, size_relocate f no]
  | letIn _ defs body => by
    simp only [relocate, size, sizeDefs_relocate f defs, size_relocate f body]

theorem sizeList_relocate (f : Place → Place) :
    (es : List Expr) → sizeList (relocateList f es) = sizeList es
  | [] => rfl
  | e :: es => by simp only [relocateList, sizeList, size_relocate f e, sizeList_relocate f es]

theorem sizeDefs_relocate (f : Place → Place) :
    (ds : List (Binder × Expr)) → sizeDefs (relocateDefs f ds) = sizeDefs ds
  | [] => rfl
  | (_, e) :: ds => by simp only [relocateDefs, sizeDefs, size_relocate f e, sizeDefs_relocate f ds]
end

/-! ## Numbers in post-order -/

mutual
/-- The tree with its nodes numbered in post-order from `n` on. -/
def numberFrom (n : Nat) : Expr → Expr
  | int p m => int ⟨n, p.span⟩ m
  | bool p b => bool ⟨n, p.span⟩ b
  | null p => null ⟨n, p.span⟩
  | ident p name => ident ⟨n, p.span⟩ name
  | prim p q => prim ⟨n, p.span⟩ q
  | unary p op operand => unary ⟨n + operand.size, p.span⟩ op (operand.numberFrom n)
  | binary p op left right =>
    binary ⟨n + left.size + right.size, p.span⟩ op (left.numberFrom n)
      (right.numberFrom (n + left.size))
  | call p callee args =>
    call ⟨n + callee.size + sizeList args, p.span⟩ (callee.numberFrom n)
      (numberListFrom (n + callee.size) args)
  | map p params body => map ⟨n + body.size, p.span⟩ params (body.numberFrom n)
  | cond p test yes no =>
    cond ⟨n + test.size + yes.size + no.size, p.span⟩ (test.numberFrom n)
      (yes.numberFrom (n + test.size)) (no.numberFrom (n + test.size + yes.size))
  | letIn p defs body =>
    letIn ⟨n + sizeDefs defs + body.size, p.span⟩ (numberDefsFrom n defs)
      (body.numberFrom (n + sizeDefs defs))

/-- Several trees with their nodes numbered in post-order from `n` on. -/
def numberListFrom (n : Nat) : List Expr → List Expr
  | [] => []
  | e :: es => e.numberFrom n :: numberListFrom (n + e.size) es

/-- Definitions with the nodes of their right-hand sides numbered in post-order from `n` on. -/
def numberDefsFrom (n : Nat) : List (Binder × Expr) → List (Binder × Expr)
  | [] => []
  | (b, e) :: ds => (b, e.numberFrom n) :: numberDefsFrom (n + e.size) ds
end

/-- The numbers count the nodes in post-order from `n` on. -/
def IsNumbered (n : Nat) (e : Expr) : Prop := e.withoutSpans = e.bare.numberFrom n

/-- The numbers count the nodes of several trees in post-order from `n` on. -/
def AreNumbered (n : Nat) (es : List Expr) : Prop :=
  relocateList (fun p => ⟨p.id, ⟨0, 0⟩⟩) es = numberListFrom n (bareList es)

/-- The numbers count the nodes of right-hand sides in post-order from `n` on. -/
def DefsAreNumbered (n : Nat) (ds : List (Binder × Expr)) : Prop :=
  relocateDefs (fun p => ⟨p.id, ⟨0, 0⟩⟩) ds = numberDefsFrom n (bareDefs ds)

/-- Trees that count their nodes in post-order differ in spans only if they differ in places only. -/
theorem IsNumbered.withoutSpans_eq {n : Nat} {e e' : Expr} (h : e.IsNumbered n)
    (h' : e'.IsNumbered n) (hbare : e.bare = e'.bare) : e.withoutSpans = e'.withoutSpans := by
  rw [h, h', hbare]

/-! ## Places do not show in print -/

theorem isConstant_relocate (f : Place → Place) (e : Expr) :
    (e.relocate f).isConstant = e.isConstant := by
  cases e <;> rfl

theorem printParams_bare (params : List Binder) :
    printParams (params.map bareBinder) = printParams params := by
  match params with
  | [] | [_] => rfl
  | p :: q :: ps =>
      have ih := printParams_bare (q :: ps)
      simp only [List.map_cons] at ih
      simp only [List.map_cons, printParams, ih]
      rfl

mutual
theorem printIn_relocate (f : Place → Place) (c : Nat) :
    (e : Expr) → (e.relocate f).printIn c = e.printIn c
  | int .. | null _ | ident .. | prim .. => by simp only [relocate, printIn]
  | bool _ b => by cases b <;> simp only [relocate, printIn]
  | unary _ _ operand => by simp only [relocate, printIn, printIn_relocate f _ operand]
  | binary _ _ left right => by
    simp only [relocate, printIn, printIn_relocate f _ left, printIn_relocate f _ right]
  | call _ callee args => by
    simp only [relocate, printIn, isConstant_relocate, printIn_relocate f _ callee,
      printArgs_relocate f args]
  | map _ _ body => by
    simp only [relocate, printIn, printParams_bare, printIn_relocate f _ body]
  | cond _ test yes no => by
    simp only [relocate, printIn, printIn_relocate f _ test, printIn_relocate f _ yes,
      printIn_relocate f _ no]
  | letIn _ defs body => by
    simp only [relocate, printIn, printDefs_relocate f defs, printIn_relocate f _ body]

theorem printArgs_relocate (f : Place → Place) :
    (es : List Expr) → printArgs (relocateList f es) = printArgs es
  | [] => rfl
  | [e] => by simp only [relocateList, printArgs, printIn_relocate f _ e]
  | e :: e' :: es => by
    have ih := printArgs_relocate f (e' :: es)
    simp only [relocateList] at ih
    simp only [relocateList, printArgs, printIn_relocate f _ e, ih]

theorem printDefs_relocate (f : Place → Place) :
    (ds : List (Binder × Expr)) → printDefs (relocateDefs f ds) = printDefs ds
  | [] => rfl
  | (_, e) :: ds => by
    simp only [relocateDefs, printDefs, bareBinder, printIn_relocate f _ e,
      printDefs_relocate f ds]
end

/-- Trees that differ in their places only have the same text. -/
theorem print_eq_of_bare_eq {e e' : Expr} (h : e.bare = e'.bare) : e.print = e'.print := by
  have hprint := congrArg print h
  simpa only [print, bare, printIn_relocate] using hprint

/-! ## Negative integers -/

mutual
/-- The tree with unary minus in front of a natural number for each negative integer. -/
def spelled : Expr → Expr
  | int p n => if n < 0 then unary p .neg (int p (-n)) else int p n
  | bool p b => bool p b
  | null p => null p
  | ident p name => ident p name
  | prim p q => prim p q
  | unary p op operand => unary p op operand.spelled
  | binary p op left right => binary p op left.spelled right.spelled
  | call p callee args => call p callee.spelled (spelledList args)
  | map p params body => map p params body.spelled
  | cond p test yes no => cond p test.spelled yes.spelled no.spelled
  | letIn p defs body => letIn p (spelledDefs defs) body.spelled

/-- Several trees as they are spelled. -/
def spelledList : List Expr → List Expr
  | [] => []
  | e :: es => e.spelled :: spelledList es

/-- Definitions as they are spelled. -/
def spelledDefs : List (Binder × Expr) → List (Binder × Expr)
  | [] => []
  | (b, e) :: ds => (b, e.spelled) :: spelledDefs ds
end

theorem toString_of_neg {n : Int} (h : n < 0) : toString n = "-" ++ toString (-n) := by
  obtain ⟨m, rfl⟩ : ∃ m : Nat, n = Int.negSucc m := ⟨(-n - 1).toNat, by omega⟩
  rfl

/-- In a context that is not a callee's, a negative integer needs no parentheses. -/
theorem printIn_spelled_int {n : Int} (p : Place) {c : Nat} (hc : c ≤ unaryContext) :
    (int p n).spelled.printIn c = (int p n).printIn c := by
  simp only [spelled]
  split
  · next h =>
      simp only [printIn, parenthesize, Nat.not_lt.2 hc, decide_false, Bool.false_eq_true, if_false,
        toString_of_neg h]
      rfl
  · rfl

/-- The callee of a call is printed as it is spelled: a negative integer has parentheses as a
constant, a unary minus has them as an operator. -/
theorem callee_spelled {callee : Expr}
    (h : ∀ c, c ≤ unaryContext ∨ callee.isConstant = false →
      callee.spelled.printIn c = callee.printIn c) :
    parenthesize callee.spelled.isConstant (callee.spelled.printIn calleeContext) =
      parenthesize callee.isConstant (callee.printIn calleeContext) := by
  cases callee with
  | int p n =>
      simp only [spelled]
      split
      · next hneg =>
          simp only [printIn, isConstant, parenthesize, toString_of_neg hneg]
          rfl
      · rfl
  | bool | null => rfl
  | ident | prim | unary | binary | call | map | cond | letIn => rw [h _ (.inr rfl)]; rfl

mutual
theorem printIn_spelled (c : Nat) : (e : Expr) → c ≤ unaryContext ∨ e.isConstant = false →
    e.spelled.printIn c = e.printIn c
  | int p n, h => printIn_spelled_int p (h.resolve_right (by simp [isConstant]))
  | bool .., _ | null _, _ | ident .., _ | prim .., _ => rfl
  | unary _ _ operand, _ => by
    simp only [spelled, printIn, printIn_spelled _ operand (.inl (Nat.le_refl _))]
  | binary _ op left right, _ => by
    have hlevel := op.precedence_le
    simp only [spelled, printIn,
      printIn_spelled op.precedence left (.inl (Nat.le_succ_of_le hlevel)),
      printIn_spelled (op.precedence + 1) right (.inl (Nat.succ_le_succ hlevel))]
  | call _ callee args, _ => by
    simp only [spelled, printIn, callee_spelled fun c => printIn_spelled c callee,
      printArgs_spelled args]
  | map _ _ body, _ => by
    simp only [spelled, printIn, printIn_spelled anyContext body (.inl (Nat.zero_le _))]
  | cond _ test yes no, _ => by
    simp only [spelled, printIn, printIn_spelled anyContext test (.inl (Nat.zero_le _)),
      printIn_spelled anyContext yes (.inl (Nat.zero_le _)),
      printIn_spelled anyContext no (.inl (Nat.zero_le _))]
  | letIn _ defs body, _ => by
    simp only [spelled, printIn, printDefs_spelled defs,
      printIn_spelled anyContext body (.inl (Nat.zero_le _))]

theorem printArgs_spelled : (es : List Expr) → printArgs (spelledList es) = printArgs es
  | [] => rfl
  | [e] => by
    simp only [spelledList, printArgs, printIn_spelled anyContext e (.inl (Nat.zero_le _))]
  | e :: e' :: es => by
    have ih := printArgs_spelled (e' :: es)
    simp only [spelledList] at ih
    simp only [spelledList, printArgs, printIn_spelled anyContext e (.inl (Nat.zero_le _)), ih]

theorem printDefs_spelled : (ds : List (Binder × Expr)) → printDefs (spelledDefs ds) = printDefs ds
  | [] => rfl
  | (_, e) :: ds => by
    simp only [spelledDefs, printDefs, printIn_spelled anyContext e (.inl (Nat.zero_le _)),
      printDefs_spelled ds]
end

/-- A tree is printed as it is spelled. -/
theorem print_spelled (e : Expr) : e.spelled.print = e.print :=
  printIn_spelled anyContext e (.inl (Nat.zero_le _))

end Expr

end PolicyEval
