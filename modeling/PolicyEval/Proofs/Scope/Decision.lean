import PolicyEval.Expr.Table
import PolicyEval.Proofs.Scope.Captured
import PolicyEval.Proofs.Syntax.Numbering
import PolicyEval.Scope.Flat

/-!
# What the lexical check decides

The lexical check walks a program once and carries the names in scope.  Whether a program is
well-scoped is a matter of its occurrences instead: a node of a table occurs below a root along a
path, and every step of the path that enters the body of a function or of definitions puts their
binders in force.  A node that several parents share occurs once for each path.

* `Node.Occurs` — the occurrences below a row, each with the binders in force there.
* `Node.WellScoped` — every variable is among the binders in force and no group repeats a name.
* `Node.Exhibits` — the occurrence that an error is about.
* `checkIn_eq` — one step of the check: the node itself, then its parts in order.
* `checkIn_eq_ok_iff`, `exists_of_checkIn_eq_error` — the verdict of the check on a tree.
* `checkLexical_decides_wellScoped` — the check accepts exactly the well-scoped roots of a table,
  and each of its errors is about an occurrence below the root.
-/

namespace PolicyEval

/-! ## Repeated names in one group -/

/-- No two binders have the same name, that is, the same number. -/
def HasDistinctNames (binders : List Binder) : Prop :=
  binders.Pairwise fun a b => a.name.index ≠ b.name.index

/-- `repeated` stands at the first position that repeats a name, and `earlier` where that name stood
before. -/
def IsFirstRepeat (binders : List Binder) (earlier repeated : Binder) : Prop :=
  ∃ i j, i < j ∧ binders[i]? = some earlier ∧ binders[j]? = some repeated ∧
    earlier.name.index = repeated.name.index ∧ HasDistinctNames (binders.take j)

/-- The search finds nothing exactly when the binders ahead neither repeat each other nor one of
those met so far. -/
theorem firstRepeat?_eq_none_iff {seen binders : List Binder} :
    firstRepeat? seen binders = none ↔
      HasDistinctNames binders ∧ ∀ b ∈ binders, ∀ s ∈ seen, s.name.index ≠ b.name.index := by
  induction binders generalizing seen with
  | nil => simp [firstRepeat?, HasDistinctNames]
  | cons b rest ih =>
      simp only [firstRepeat?]
      split
      next earlier hfound =>
        have hmem := List.mem_of_find?_eq_some hfound
        have hsame : earlier.name.index = b.name.index := by
          simpa using List.find?_some hfound
        simp only [reduceCtorEq, false_iff]
        intro ⟨_, hfresh⟩
        exact hfresh b (by simp) earlier hmem hsame
      next hfound =>
        have hfresh : ∀ s ∈ seen, s.name.index ≠ b.name.index := by
          simpa [List.find?_eq_none] using hfound
        rw [ih]
        simp only [HasDistinctNames, List.pairwise_cons, List.forall_mem_cons]
        constructor
        · intro ⟨hrest, hseen⟩
          exact ⟨⟨fun c hc => (hseen c hc).1, hrest⟩, hfresh, fun c hc => (hseen c hc).2⟩
        · intro ⟨⟨hb, hrest⟩, _, hseen⟩
          exact ⟨hrest, fun c hc => ⟨hb c hc, hseen c hc⟩⟩

/-- What the search finds is a first repetition, in the order in which the binders were met. -/
theorem isFirstRepeat_of_firstRepeat? {seen binders : List Binder} {earlier repeated : Binder}
    (hseen : HasDistinctNames seen.reverse)
    (h : firstRepeat? seen binders = some (earlier, repeated)) :
    IsFirstRepeat (seen.reverse ++ binders) earlier repeated := by
  induction binders generalizing seen with
  | nil => simp [firstRepeat?] at h
  | cons b rest ih =>
      simp only [firstRepeat?] at h
      split at h
      next found hfound =>
        cases h
        have hmem : earlier ∈ seen.reverse := by
          simpa using List.mem_of_find?_eq_some hfound
        obtain ⟨i, hi⟩ := List.mem_iff_getElem?.mp hmem
        have hlt : i < seen.reverse.length := (List.getElem?_eq_some_iff.mp hi).1
        refine ⟨i, seen.reverse.length, hlt, ?_, ?_, ?_, ?_⟩
        · rw [List.getElem?_append_left hlt, hi]
        · simp
        · simpa using List.find?_some hfound
        · simpa using hseen
      next hfound =>
        have hfresh : ∀ s ∈ seen, s.name.index ≠ b.name.index := by
          simpa [List.find?_eq_none] using hfound
        have hnext : HasDistinctNames (b :: seen).reverse := by
          simp only [HasDistinctNames, List.reverse_cons, List.pairwise_append]
          exact ⟨hseen, List.pairwise_singleton _ _, by simpa using hfresh⟩
        simpa using ih hnext h

theorem checkDistinct_eq_ok_iff {kind : BinderKind} {binders : List Binder} :
    checkDistinct kind binders = .ok () ↔ HasDistinctNames binders := by
  have hnone : firstRepeat? [] binders = none ↔ HasDistinctNames binders := by
    simp [firstRepeat?_eq_none_iff]
  rw [← hnone, checkDistinct]
  split <;> simp_all

theorem checkDistinct_eq_error {kind : BinderKind} {binders : List Binder} {err : ScopeError}
    (h : checkDistinct kind binders = .error err) :
    ∃ earlier repeated, IsFirstRepeat binders earlier repeated ∧
      err = ⟨.duplicateBinding repeated.name kind earlier.span, repeated.span⟩ := by
  rw [checkDistinct] at h
  split at h
  next earlier repeated hfound =>
    cases h
    have hempty : HasDistinctNames ([] : List Binder).reverse := List.Pairwise.nil
    exact ⟨earlier, repeated, isFirstRepeat_of_firstRepeat? hempty hfound, rfl⟩
  next => cases h

/-! ## Occurrences -/

/-- What a node asks of the place where it occurs. -/
inductive Demand where
  /-- The variable at the span is bound. -/
  | bound (span : Span) (name : Name)
  /-- The binders of one form have distinct names. -/
  | distinct (kind : BinderKind) (binders : List Binder)

namespace Demand

/-- The demand is met within the scope of the binders `around`. -/
def Met (around : List Binder) : Demand → Prop
  | bound _ name => ∃ b ∈ around, b.name.index = name.index
  | distinct _ binders => HasDistinctNames binders

/-- The demand is not met within the scope of the binders `around`, and the error says why. -/
def Explains (around : List Binder) (err : ScopeError) : Demand → Prop
  | bound span name =>
    (∀ b ∈ around, b.name.index ≠ name.index) ∧ err = ⟨.freeVariable name, span⟩
  | distinct kind binders => ∃ earlier repeated, IsFirstRepeat binders earlier repeated ∧
    err = ⟨.duplicateBinding repeated.name kind earlier.span, repeated.span⟩

end Demand

namespace Expr

/-- What the root node asks of its place. -/
def demand? : Expr → Option Demand
  | ident place name => some (.bound place.span name)
  | map _ params _ => some (.distinct .map params)
  | letIn _ defs _ => some (.distinct .letIn (defs.map Prod.fst))
  | _ => none

/-- The parts of an expression in the order of the check, each with the binders that the expression
puts in force there.  Right-hand sides see none of the names defined beside them. -/
def scopes : Expr → List (List Binder × Expr)
  | unary _ _ operand => [([], operand)]
  | binary _ _ left right => [([], left), ([], right)]
  | call _ callee args => ([], callee) :: args.map fun arg => ([], arg)
  | map _ params body => [(params, body)]
  | cond _ test yes no => [([], test), ([], yes), ([], no)]
  | letIn _ defs body => (defs.map fun d => ([], d.2)) ++ [(defs.map Prod.fst, body)]
  | _ => []

/-- The check of the root node alone, within the names `scope`. -/
def checkHere (scope : List Name) : Expr → Except ScopeError Unit
  | ident place name => checkBound scope place name
  | map _ params _ => checkDistinct .map params
  | letIn _ defs _ => checkDistinct .letIn (defs.map Prod.fst)
  | _ => pure ()

/-- An expression occurs in another one, within the scope of the binders `around`, innermost
first. -/
inductive Occurs : Expr → List Binder → Expr → Prop
  | here (e : Expr) : Occurs e [] e
  | inside {e part sub : Expr} {opened around : List Binder} (hpart : (opened, part) ∈ e.scopes)
      (hsub : Occurs part around sub) : Occurs e (around ++ opened) sub

theorem checkBound_eq_ok_iff {around : List Binder} {place : Place} {name : Name} :
    checkBound (around.map Binder.name) place name = .ok () ↔
      (Demand.bound place.span name).Met around := by
  simp [checkBound, inScope, Demand.Met]

theorem checkHere_eq_ok_iff {around : List Binder} {e : Expr} :
    e.checkHere (around.map Binder.name) = .ok () ↔ ∀ d, e.demand? = some d → d.Met around := by
  cases e with
  | ident => simp [checkHere, demand?, checkBound_eq_ok_iff]
  | map | letIn => simp [checkHere, demand?, Demand.Met, checkDistinct_eq_ok_iff]
  | int | bool | null | prim | unary | binary | call | cond =>
      simp [checkHere, demand?, pure, Except.pure]

theorem exists_of_checkHere_eq_error {around : List Binder} {e : Expr} {err : ScopeError}
    (h : e.checkHere (around.map Binder.name) = .error err) :
    ∃ d, e.demand? = some d ∧ d.Explains around err := by
  cases e with
  | ident place name =>
      refine ⟨_, rfl, ?_⟩
      simp only [checkHere, checkBound] at h
      split at h
      · cases h
      next hfree =>
        cases h
        exact ⟨by simpa [inScope] using hfree, rfl⟩
  | map | letIn => exact ⟨_, rfl, checkDistinct_eq_error h⟩
  | int | bool | null | prim | unary | binary | call | cond => cases h

theorem map_snd_scopes (e : Expr) : e.scopes.map Prod.snd = e.parts := by
  cases e <;> simp [scopes, parts, Function.comp_def]

theorem size_lt_of_mem_scopes {e part : Expr} {opened : List Binder}
    (h : (opened, part) ∈ e.scopes) : part.size < e.size := by
  have hpart : part ∈ e.parts := by
    rw [← map_snd_scopes]
    exact List.mem_map_of_mem h
  exact size_lt_of_mem_parts hpart

end Expr

/-! ## The verdict on a tree -/

theorem checkListIn_eq_forM (scope : List Name) (es : List Expr) :
    checkListIn scope es = es.forM (checkIn scope) := by
  induction es with
  | nil => rfl
  | cons e es ih => simp only [checkListIn, ih, List.forM_eq_forM, List.forM_cons]

theorem checkDefsIn_eq_forM (scope : List Name) (ds : List (Binder × Expr)) :
    checkDefsIn scope ds = ds.forM fun d => checkIn scope d.2 := by
  induction ds with
  | nil => rfl
  | cons d ds ih => simp only [checkDefsIn, ih, List.forM_eq_forM, List.forM_cons]

/-- The check of an expression: its root node first, then its parts from left to right, each within
the names that are in force there. -/
theorem checkIn_eq (scope : List Name) (e : Expr) :
    checkIn scope e = (do
      e.checkHere scope
      e.scopes.forM fun part => checkIn (part.1.map Binder.name ++ scope) part.2) := by
  cases e with
  | int | bool | null | prim => rfl
  | ident | unary | binary | map | cond => simp [checkIn, Expr.checkHere, Expr.scopes]
  | call place callee args =>
      simp [checkIn, Expr.checkHere, Expr.scopes, checkListIn_eq_forM, List.forM_map]
  | letIn place defs body =>
      simp [checkIn, Expr.checkHere, Expr.scopes, checkDefsIn_eq_forM, List.forM_map,
        Function.comp_def]

theorem forM_eq_ok_iff {α ε : Type} {f : α → Except ε Unit} {xs : List α} :
    xs.forM f = .ok () ↔ ∀ x ∈ xs, f x = .ok () := by
  induction xs with
  | nil => simp [pure, Except.pure]
  | cons x xs ih =>
      rw [List.forM_eq_forM, List.forM_cons, Except.andThen_eq_ok, List.forall_mem_cons]
      exact and_congr_right fun _ => ih

theorem andThen_eq_error {ε : Type} {first : Except ε Unit} {next : Unit → Except ε Unit} {err : ε}
    (h : (first >>= next) = .error err) : first = .error err ∨ next () = .error err := by
  cases first with
  | error e => exact .inl h
  | ok u => exact .inr h

theorem exists_of_forM_eq_error {α ε : Type} {f : α → Except ε Unit} {xs : List α} {err : ε}
    (h : xs.forM f = .error err) : ∃ x ∈ xs, f x = .error err := by
  induction xs with
  | nil => simp [pure, Except.pure] at h
  | cons x xs ih =>
      rw [List.forM_eq_forM, List.forM_cons] at h
      rcases andThen_eq_error h with hx | hxs
      · exact ⟨x, by simp, hx⟩
      · obtain ⟨y, hy, herr⟩ := ih hxs
        exact ⟨y, by simp [hy], herr⟩

/-- An expression is accepted exactly when every node that occurs in it is, within the names in
force there. -/
theorem checkIn_eq_ok_iff {scope : List Name} (e : Expr) :
    checkIn scope e = .ok () ↔ ∀ around sub, e.Occurs around sub →
      sub.checkHere (around.map Binder.name ++ scope) = .ok () := by
  rw [checkIn_eq, Except.andThen_eq_ok, forM_eq_ok_iff]
  constructor
  · intro ⟨hhere, hparts⟩ around sub hsub
    cases hsub with
    | here => exact hhere
    | @inside _ part _ opened around hpart hsub =>
        have := Expr.size_lt_of_mem_scopes hpart
        simpa using (checkIn_eq_ok_iff part).mp (hparts _ hpart) around sub hsub
  · intro h
    refine ⟨h [] e (.here e), fun part hpart => ?_⟩
    have := Expr.size_lt_of_mem_scopes hpart
    rw [checkIn_eq_ok_iff part.2]
    intro around sub hsub
    simpa using h _ sub (.inside hpart hsub)
termination_by e.size

/-- An error comes from a node that occurs in the expression. -/
theorem exists_of_checkIn_eq_error {scope : List Name} {err : ScopeError} (e : Expr)
    (h : checkIn scope e = .error err) :
    ∃ around sub, e.Occurs around sub ∧
      sub.checkHere (around.map Binder.name ++ scope) = .error err := by
  rw [checkIn_eq] at h
  rcases andThen_eq_error h with hhere | hparts
  · exact ⟨[], e, .here e, hhere⟩
  · obtain ⟨⟨opened, part⟩, hpart, herr⟩ := exists_of_forM_eq_error hparts
    have := Expr.size_lt_of_mem_scopes hpart
    obtain ⟨around, sub, hsub, hat⟩ := exists_of_checkIn_eq_error part herr
    exact ⟨around ++ opened, sub, .inside hpart hsub, by simpa using hat⟩
termination_by e.size

/-! ## Tables -/

namespace Node

/-- The children of a row in the order of the check, each with the binders that the row puts in
force there. -/
def scopes : Node → List (List Binder × Nat)
  | unary _ _ operand => [([], operand)]
  | binary _ _ left right => [([], left), ([], right)]
  | call _ callee args => ([], callee) :: args.map fun arg => ([], arg)
  | map _ params body => [(params, body)]
  | cond _ test yes no => [([], test), ([], yes), ([], no)]
  | letIn _ defs body => (defs.map fun d => ([], d.2)) ++ [(defs.map Prod.fst, body)]
  | _ => []

/-- What a row asks of its place. -/
def demand? : Node → Option Demand
  | ident span name => some (.bound span name)
  | map _ params _ => some (.distinct .map params)
  | letIn _ defs _ => some (.distinct .letIn (defs.map Prod.fst))
  | _ => none

/-- Every child of a row stands before it. -/
def IsOrdered (nodes : List Node) : Prop :=
  ∀ (i : Nat) (node : Node), nodes[i]? = some node → ∀ part ∈ node.scopes, part.2 < i

/-- A row occurs below another one, within the scope of the binders `around`, innermost first. -/
inductive Occurs (nodes : List Node) : Nat → List Binder → Nat → Prop
  | here (i : Nat) : Occurs nodes i [] i
  | inside {i child j : Nat} {node : Node} {opened around : List Binder}
      (hnode : nodes[i]? = some node) (hchild : (opened, child) ∈ node.scopes)
      (hbelow : Occurs nodes child around j) : Occurs nodes i (around ++ opened) j

/-- A row with the demand `d` occurs below the root, within the scope of the binders `around`. -/
def Poses (nodes : List Node) (root : Nat) (around : List Binder) (d : Demand) : Prop :=
  ∃ i node, Occurs nodes root around i ∧ nodes[i]? = some node ∧ node.demand? = some d

/-- Every variable that occurs below the root is bound by an enclosing function, or by enclosing
definitions in whose body it stands, and no group of binders there repeats a name. -/
def WellScoped (nodes : List Node) (root : Nat) : Prop :=
  ∀ around d, Poses nodes root around d → d.Met around

/-- The error is about an occurrence below the root: a variable that no binder around it introduces,
or a group of binders that repeats a name. -/
def Exhibits (nodes : List Node) (root : Nat) (err : ScopeError) : Prop :=
  ∃ around d, Poses nodes root around d ∧ d.Explains around err

/-- The expression is that of the row over the expressions `trees` of the other rows. -/
structure Depicts (trees : Array Expr) (node : Node) (e : Expr) : Prop where
  demand : e.demand? = node.demand?
  scopes : (e.scopes.map fun part => (part.1, some part.2)) =
    node.scopes.map fun part => (part.1, trees[part.2]?)

theorem mapM_lookup {α : Type} {before : Array Expr} {index : α → Nat} {xs : List α}
    (h : ∀ x ∈ xs, index x < before.size) :
    ∃ es, xs.mapM (fun x => before[index x]?) = some es ∧
      es.map some = xs.map fun x => before[index x]? := by
  induction xs with
  | nil => exact ⟨[], rfl, rfl⟩
  | cons x xs ih =>
      obtain ⟨es, hes, hmap⟩ := ih fun y hy => h y (by simp [hy])
      have hx : index x < before.size := h x (by simp)
      exact ⟨before[index x] :: es, by simp [hes, hx], by simp [hmap, hx]⟩

/-- A row whose children stand before it has an expression. -/
theorem exists_build? {before : Array Expr} {node : Node}
    (h : ∀ part ∈ node.scopes, part.2 < before.size) :
    ∃ e, node.build? before = some e ∧ Depicts before node e := by
  cases node with
  | int | bool | null | ident | prim => exact ⟨_, rfl, rfl, rfl⟩
  | unary span op operand =>
      have hoperand : operand < before.size := h ([], operand) (by simp [Node.scopes])
      exact ⟨.unary ⟨before.size, span⟩ op before[operand], by simp [build?, hoperand], rfl,
        by simp [Expr.scopes, Node.scopes, hoperand]⟩
  | binary span op left right =>
      have hleft : left < before.size := h ([], left) (by simp [Node.scopes])
      have hright : right < before.size := h ([], right) (by simp [Node.scopes])
      exact ⟨.binary ⟨before.size, span⟩ op before[left] before[right],
        by simp [build?, hleft, hright], rfl, by simp [Expr.scopes, Node.scopes, hleft, hright]⟩
  | map span params body =>
      have hbody : body < before.size := h (params, body) (by simp [Node.scopes])
      exact ⟨.map ⟨before.size, span⟩ params before[body], by simp [build?, hbody], rfl,
        by simp [Expr.scopes, Node.scopes, hbody]⟩
  | cond span test yes no =>
      have htest : test < before.size := h ([], test) (by simp [Node.scopes])
      have hyes : yes < before.size := h ([], yes) (by simp [Node.scopes])
      have hno : no < before.size := h ([], no) (by simp [Node.scopes])
      exact ⟨.cond ⟨before.size, span⟩ before[test] before[yes] before[no],
        by simp [build?, htest, hyes, hno], rfl,
        by simp [Expr.scopes, Node.scopes, htest, hyes, hno]⟩
  | call span callee args =>
      simp only [Node.scopes, List.forall_mem_cons, List.forall_mem_map] at h
      obtain ⟨hcallee, hargs⟩ := h
      obtain ⟨es, hes, hmap⟩ := mapM_lookup hargs
      refine ⟨.call ⟨before.size, span⟩ before[callee] es, by simp [build?, hcallee, hes], rfl, ?_⟩
      have hparts : (es.map fun e => (([] : List Binder), some e)) =
          args.map fun arg => ([], before[arg]?) := by
        simpa [Function.comp_def] using congrArg (List.map fun e => (([] : List Binder), e)) hmap
      simpa [Expr.scopes, Node.scopes, hcallee, Function.comp_def] using hparts
  -- A row keeps names and places in pairs; only the places are looked up.
  | letIn span defs body =>
      simp only [Node.scopes, List.forall_mem_append, List.forall_mem_map,
        List.forall_mem_singleton] at h
      obtain ⟨hdefs, hbody⟩ := h
      obtain ⟨es, hes, hmap⟩ := mapM_lookup hdefs
      have hlength : es.length = defs.length := by simpa using congrArg List.length hmap
      have hnames : ((defs.map Prod.fst).zip es).map Prod.fst = defs.map Prod.fst :=
        List.map_fst_zip (by simp [hlength])
      have hinits : ((defs.map Prod.fst).zip es).map Prod.snd = es :=
        List.map_snd_zip (by simp [hlength])
      refine ⟨.letIn ⟨before.size, span⟩ ((defs.map Prod.fst).zip es) before[body],
        by simp [build?, hbody, hes], by simp only [Expr.demand?, demand?, hnames], ?_⟩
      have hparts : (((defs.map Prod.fst).zip es).map fun d => (([] : List Binder), some d.2)) =
          defs.map fun d => ([], before[d.2]?) := by
        have hsome := congrArg (List.map fun e => (([] : List Binder), e)) hmap
        rw [← hinits] at hsome
        simpa [Function.comp_def] using hsome
      simpa [Expr.scopes, Node.scopes, hbody, hnames, Function.comp_def] using hparts

section Depicts

variable {trees : Array Expr} {node : Node} {e : Expr} (h : Depicts trees node e)
include h

/-- The children of the row have expressions, which are the parts of its own. -/
theorem Depicts.exists_part {opened : List Binder} {child : Nat}
    (hchild : (opened, child) ∈ node.scopes) :
    ∃ part, trees[child]? = some part ∧ (opened, part) ∈ e.scopes := by
  have hmem : (opened, trees[child]?) ∈ e.scopes.map fun part => (part.1, some part.2) := by
    rw [h.scopes]
    exact List.mem_map_of_mem (f := fun part => (part.1, trees[part.2]?)) hchild
  obtain ⟨⟨_, part⟩, hpart, heq⟩ := List.mem_map.mp hmem
  obtain ⟨rfl, hlookup⟩ := Prod.mk.inj heq
  exact ⟨part, hlookup.symm, hpart⟩

/-- The parts of the expression are those of children of the row. -/
theorem Depicts.exists_child {opened : List Binder} {part : Expr}
    (hpart : (opened, part) ∈ e.scopes) :
    ∃ child, trees[child]? = some part ∧ (opened, child) ∈ node.scopes := by
  have hmem : (opened, some part) ∈ node.scopes.map fun part => (part.1, trees[part.2]?) := by
    rw [← h.scopes]
    exact List.mem_map_of_mem (f := fun part => (part.1, some part.2)) hpart
  obtain ⟨⟨_, child⟩, hchild, heq⟩ := List.mem_map.mp hmem
  obtain ⟨rfl, hlookup⟩ := Prod.mk.inj heq
  exact ⟨child, hlookup, hchild⟩

/-- The expression stays that of the row when more rows follow. -/
theorem Depicts.push (last : Expr) : Depicts (trees.push last) node e := by
  refine ⟨h.demand, h.scopes.trans (List.map_congr_left fun part hpart => ?_)⟩
  obtain ⟨found, hfound, -⟩ := h.exists_part hpart
  have hlt : part.2 < trees.size := (Array.getElem?_eq_some_iff.mp hfound).1
  simp only [Array.getElem?_push, Nat.ne_of_lt hlt, if_false]

end Depicts

/-- Every row has its expression. -/
structure Depicted (nodes : List Node) (trees : Array Expr) : Prop where
  size : trees.size = nodes.length
  row : ∀ (i : Nat) (node : Node), nodes[i]? = some node →
    ∃ e, trees[i]? = some e ∧ Depicts trees node e

theorem Depicted.push {nodes : List Node} {trees : Array Expr} {node : Node} {e : Expr}
    (h : Depicted nodes trees) (hnode : Depicts trees node e) :
    Depicted (nodes ++ [node]) (trees.push e) := by
  refine ⟨by simp [h.size], fun i other hother => ?_⟩
  rcases Nat.lt_or_ge i nodes.length with hlt | hge
  · rw [List.getElem?_append_left hlt] at hother
    obtain ⟨found, hfound, hdepicts⟩ := h.row i other hother
    refine ⟨found, ?_, hdepicts.push e⟩
    rw [Array.getElem?_push, if_neg (by rw [h.size]; omega), hfound]
  · have hlast : i = nodes.length ∧ node = other := by
      rw [List.getElem?_append_right hge, List.getElem?_singleton] at hother
      split at hother
      · exact ⟨by omega, by simpa using hother⟩
      · cases hother
    obtain ⟨rfl, rfl⟩ := hlast
    exact ⟨e, by rw [← h.size, Array.getElem?_push_size], hnode.push e⟩

/-- An ordered table has the expressions of all its rows. -/
theorem exists_buildFrom? {done rest : List Node} {before : Array Expr}
    (hordered : IsOrdered (done ++ rest)) (hdone : Depicted done before) :
    ∃ trees, buildFrom? before rest = some trees ∧ Depicted (done ++ rest) trees := by
  induction rest generalizing done before with
  | nil => exact ⟨before, rfl, by simpa using hdone⟩
  | cons node rest ih =>
      have hrow : ∀ part ∈ node.scopes, part.2 < before.size := by
        rw [hdone.size]
        exact hordered done.length node (by simp)
      obtain ⟨e, hbuild, hdepicts⟩ := exists_build? hrow
      obtain ⟨trees, htrees, hall⟩ := ih (by simpa using hordered) (hdone.push hdepicts)
      exact ⟨trees, by simpa only [buildFrom?, hbuild] using htrees, by simpa using hall⟩

section Depicted

variable {nodes : List Node} {trees : Array Expr} (h : Depicted nodes trees)
include h

theorem Depicted.exists_row {i : Nat} {e : Expr} (he : trees[i]? = some e) :
    ∃ node, nodes[i]? = some node ∧ Depicts trees node e := by
  have hlt : i < nodes.length := h.size ▸ (Array.getElem?_eq_some_iff.mp he).1
  obtain ⟨found, hfound, hdepicts⟩ := h.row i nodes[i] (List.getElem?_eq_getElem hlt)
  obtain rfl : e = found := Option.some.inj (he.symm.trans hfound)
  exact ⟨nodes[i], List.getElem?_eq_getElem hlt, hdepicts⟩

/-- What occurs below a row of the table occurs in its expression. -/
theorem Depicted.exists_occurs_tree {i j : Nat} {around : List Binder}
    (hoccurs : Occurs nodes i around j) {e : Expr} (he : trees[i]? = some e) :
    ∃ sub, trees[j]? = some sub ∧ e.Occurs around sub := by
  induction hoccurs generalizing e with
  | here i => exact ⟨e, he, .here e⟩
  | @inside i child j node opened around hnode hchild _ ih =>
      obtain ⟨found, hfound, hdepicts⟩ := h.row i node hnode
      obtain rfl : e = found := Option.some.inj (he.symm.trans hfound)
      obtain ⟨part, hpart, hmem⟩ := hdepicts.exists_part hchild
      obtain ⟨sub, hsub, hbelow⟩ := ih hpart
      exact ⟨sub, hsub, .inside hmem hbelow⟩

/-- What occurs in the expression of a row is the expression of a row that occurs below it. -/
theorem Depicted.exists_occurs_row {e sub : Expr} {around : List Binder}
    (hoccurs : e.Occurs around sub) {i : Nat} (he : trees[i]? = some e) :
    ∃ j, trees[j]? = some sub ∧ Occurs nodes i around j := by
  induction hoccurs generalizing i with
  | here e => exact ⟨i, he, .here i⟩
  | inside hpart _ ih =>
      obtain ⟨node, hnode, hdepicts⟩ := h.exists_row he
      obtain ⟨child, hchild, hmem⟩ := hdepicts.exists_child hpart
      obtain ⟨j, hj, hbelow⟩ := ih hchild
      exact ⟨j, hj, .inside hnode hmem hbelow⟩

/-- The demands below a row are those that occur in its expression. -/
theorem Depicted.poses_iff {root : Nat} {tree : Expr} (htree : trees[root]? = some tree)
    {around : List Binder} {d : Demand} :
    Poses nodes root around d ↔ ∃ sub, tree.Occurs around sub ∧ sub.demand? = some d := by
  constructor
  · intro ⟨i, node, hoccurs, hnode, hd⟩
    obtain ⟨sub, hsub, hoccurs⟩ := h.exists_occurs_tree hoccurs htree
    obtain ⟨found, hfound, hdepicts⟩ := h.row i node hnode
    obtain rfl : sub = found := Option.some.inj (hsub.symm.trans hfound)
    exact ⟨sub, hoccurs, hdepicts.demand.trans hd⟩
  · intro ⟨sub, hoccurs, hd⟩
    obtain ⟨i, hsub, hoccurs⟩ := h.exists_occurs_row hoccurs htree
    obtain ⟨node, hnode, hdepicts⟩ := h.exists_row hsub
    exact ⟨i, node, hoccurs, hnode, hdepicts.demand.symm.trans hd⟩

end Depicted

end Node

/-! ## The verdict on a table -/

/-- The lexical check decides whether a root of a node table is well-scoped, and each of its errors
is about an occurrence below that root. -/
theorem checkLexical_decides_wellScoped {nodes : List Node} {root : Nat}
    (hordered : Node.IsOrdered nodes) (hroot : root < nodes.length) :
    ∃ trees tree, Node.buildAll? nodes = some trees ∧ trees[root]? = some tree ∧
      (checkLexical tree = .ok () ↔ Node.WellScoped nodes root) ∧
      ∀ err, checkLexical tree = .error err → Node.Exhibits nodes root err := by
  obtain ⟨trees, hbuild, hall⟩ : ∃ trees, Node.buildAll? nodes = some trees ∧
      Node.Depicted nodes trees :=
    @Node.exists_buildFrom? [] nodes #[] hordered ⟨rfl, by simp⟩
  obtain ⟨tree, htree, -⟩ := hall.row root nodes[root] (List.getElem?_eq_getElem hroot)
  refine ⟨trees, tree, hbuild, htree, ?_, fun err herr => ?_⟩
  · simp only [checkLexical, checkIn_eq_ok_iff, List.append_nil, Expr.checkHere_eq_ok_iff,
      Node.WellScoped, hall.poses_iff htree]
    exact ⟨fun h around d ⟨sub, hsub, hd⟩ => h around sub hsub d hd,
      fun h around sub hsub d hd => h around d ⟨sub, hsub, hd⟩⟩
  · obtain ⟨around, sub, hsub, hat⟩ := exists_of_checkIn_eq_error tree herr
    rw [List.append_nil] at hat
    obtain ⟨d, hd, hexplains⟩ := Expr.exists_of_checkHere_eq_error hat
    exact ⟨around, d, (hall.poses_iff htree).mpr ⟨sub, hsub, hd⟩, hexplains⟩

/-- One variable that a definition and its body share, as in `let x := x; in x`, and the same within
`map x to`. -/
def Node.sharedVariable : List Node :=
  [.ident ⟨9, 10⟩ ⟨1, "x"⟩, .letIn ⟨0, 17⟩ [(⟨⟨1, "x"⟩, ⟨4, 5⟩⟩, 0)] 0,
    .map ⟨0, 27⟩ [⟨⟨1, "x"⟩, ⟨4, 5⟩⟩] 1]

/-- The shared variable is bound in the body of the definition but not in its right-hand side, and
in both once a function around them has it as a parameter. -/
theorem checkLexical_decides_sharedVariable :
    Node.IsOrdered Node.sharedVariable ∧ Node.WellScoped Node.sharedVariable 2 ∧
      Node.Exhibits Node.sharedVariable 1 ⟨.freeVariable ⟨1, "x"⟩, ⟨9, 10⟩⟩ := by
  have hordered : Node.IsOrdered Node.sharedVariable := by
    intro i node hnode
    match i with
    | 0 | 1 | 2 =>
        cases hnode
        decide
    | i + 3 => simp [Node.sharedVariable] at hnode
  refine ⟨hordered, ?_, ?_⟩
  · obtain ⟨trees, tree, hbuild, htree, hiff, -⟩ :=
      checkLexical_decides_wellScoped hordered (by decide : 2 < Node.sharedVariable.length)
    cases hbuild
    cases htree
    exact hiff.mp rfl
  · obtain ⟨trees, tree, hbuild, htree, -, herror⟩ :=
      checkLexical_decides_wellScoped hordered (by decide : 1 < Node.sharedVariable.length)
    cases hbuild
    cases htree
    exact herror _ rfl

end PolicyEval
