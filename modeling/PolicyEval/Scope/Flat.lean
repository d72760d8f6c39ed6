import PolicyEval.Scope.Basic

/-!
# The flat check

The flat check keeps one collection of names that only grows.  It visits the nodes of a program
breadth first and learns the names of every binder it meets, so a variable is accepted as soon as
some binder visited before it has its name, wherever that binder stands.  Callees are not visited.

* `visit` — one node: the names it teaches and the nodes to visit later.
* `sizeList_visit_lt` — what is left to visit shrinks, so the walk ends.
* `checkFlat` — checks a whole program.
-/

namespace PolicyEval

/-- What the flat check does with one node: the names it learns and the nodes to visit later. -/
structure Visit where
  learned : List Name
  later : List Expr

/-- Visits one node, given the names known so far.  The callee of a call is not visited. -/
def visit (known : List Name) : Expr → Except ScopeError Visit
  | .int .. | .bool .. | .null _ | .prim .. => .ok ⟨[], []⟩
  | .ident place name => do
    checkBound known place name
    return ⟨[], []⟩
  | .unary _ _ operand => .ok ⟨[], [operand]⟩
  | .binary _ _ left right => .ok ⟨[], [left, right]⟩
  | .call _ _ args => .ok ⟨[], args⟩
  | .map _ params body => do
    checkDistinct .map params
    return ⟨params.map Binder.name, [body]⟩
  | .cond _ test yes no => .ok ⟨[], [test, yes, no]⟩
  | .letIn _ defs body => do
    checkDistinct .letIn (defs.map Prod.fst)
    return ⟨defs.map fun d => d.1.name, defs.map Prod.snd ++ [body]⟩

theorem sizeList_append (xs ys : List Expr) :
    Expr.sizeList (xs ++ ys) = Expr.sizeList xs + Expr.sizeList ys := by
  induction xs with
  | nil => simp [Expr.sizeList]
  | cons x xs ih => simp [Expr.sizeList, ih, Nat.add_assoc]

theorem sizeDefs_eq_sizeList (ds : List (Binder × Expr)) :
    Expr.sizeDefs ds = Expr.sizeList (ds.map Prod.snd) := by
  induction ds with
  | nil => simp [Expr.sizeDefs, Expr.sizeList]
  | cons d ds ih => simp [Expr.sizeDefs, Expr.sizeList, ih]

/-- A visit leaves less to do: the nodes to visit later are smaller together than the node. -/
theorem sizeList_visit_lt {known : List Name} {e : Expr} {v : Visit}
    (h : visit known e = .ok v) : Expr.sizeList v.later < e.size := by
  cases e with
  | int | bool | null | prim =>
    cases h
    simp [Expr.sizeList, Expr.size]
  | ident place name =>
    simp only [visit, bind, Except.bind] at h
    split at h
    · cases h
    · cases h
      simp [Expr.sizeList, Expr.size]
  | unary =>
    cases h
    simp [Expr.sizeList, Expr.size]
  | binary =>
    cases h
    simp [Expr.sizeList, Expr.size]
  | call =>
    cases h
    simp only [Expr.size]
    omega
  | map place params body =>
    simp only [visit, bind, Except.bind] at h
    split at h
    · cases h
    · cases h
      simp [Expr.sizeList, Expr.size]
  | cond =>
    cases h
    simp only [Expr.sizeList, Expr.size]
    omega
  | letIn place defs body =>
    simp only [visit, bind, Except.bind] at h
    split at h
    · cases h
    · cases h
      simp only [sizeList_append, Expr.sizeList, Expr.size, sizeDefs_eq_sizeList]
      omega

/-- Visits the nodes of a queue from its front; nodes to visit later go to its end. -/
def walkFlat (known : List Name) (queue : List Expr) : Except ScopeError Unit :=
  match queue with
  | [] => .ok ()
  | e :: rest =>
    match _h : visit known e with
    | .error err => .error err
    | .ok v => walkFlat (v.learned ++ known) (rest ++ v.later)
termination_by Expr.sizeList queue
decreasing_by
  simp only [sizeList_append, Expr.sizeList]
  have := sizeList_visit_lt _h
  omega

/-- Checks that a program uses only names that some binder met before introduces, walking it breadth
first. -/
def checkFlat (root : Expr) : Except ScopeError Unit := walkFlat [] [root]

end PolicyEval
