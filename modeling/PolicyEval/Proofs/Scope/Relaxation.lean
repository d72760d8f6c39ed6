import PolicyEval.Proofs.Scope.Decision
import PolicyEval.Proofs.Spans.Slices

/-!
# The flat check relaxes the lexical check

The flat check works off a queue.  Over a node table the queue holds rows: the row at its front is
visited, its binders join those met so far, and its children go to the end.  A row that several
parents share is visited once for each occurrence, and the callee of a call is never visited.

The queue grows while it is worked off, so it is not its length that shrinks.  What shrinks is the
number of nodes of the trees that its rows stand for.

Why everything that is lexically bound is accepted: whatever is in the queue passes the lexical
check within some scope, and all names of that scope were met before.

* `FlatWalk.Step`, `FlatWalk.Runs` — one visit, and several visits.
* `FlatWalk.Ends` — where the walk stops, and with which verdict.
* `FlatWalk.exists_runs`, `FlatWalk.Runs.length_le` — the walk stops, with the verdict of the flat
  check, after no more visits than there are nodes.
* `Sheltered`, `Sheltered.visit` — what holds of everything in the queue, and what a visit makes of
  it.
* `checkFlat_relaxes_checkLexical` — over every ordered table the walk ends, and it accepts every
  root that the lexical check accepts.
-/

namespace PolicyEval

/-! ## One visit to a tree -/

namespace Expr

/-- The parts that the flat check visits: all but the callee of a call. -/
def visited : Expr → List Expr
  | call _ _ args => args
  | e => e.parts

theorem mem_parts_of_mem_visited {e part : Expr} (h : part ∈ e.visited) : part ∈ e.parts := by
  cases e with
  | call place callee args => exact List.mem_cons_of_mem callee h
  | int | bool | null | ident | prim | unary | binary | map | cond | letIn => exact h

theorem subset_binders_of_mem_scopes {e part : Expr} {opened : List Binder}
    (h : (opened, part) ∈ e.scopes) : opened ⊆ e.binders := by
  cases e with
  | int | bool | null | ident | prim => cases h
  | map => simp_all [scopes, binders]
  | unary | binary | cond =>
      simp only [scopes, List.mem_cons, Prod.mk.injEq, List.not_mem_nil, or_false] at h
      grind
  | call place callee args =>
      simp only [scopes, List.mem_cons, List.mem_map, Prod.mk.injEq] at h
      rcases h with ⟨rfl, -⟩ | ⟨arg, -, rfl, -⟩ <;> exact List.nil_subset _
  | letIn place defs body =>
      simp only [scopes, List.mem_append, List.mem_map, List.mem_singleton, Prod.mk.injEq] at h
      rcases h with ⟨d, -, rfl, -⟩ | ⟨rfl, -⟩
      · exact List.nil_subset _
      · exact List.Subset.refl _

end Expr

/-- A visit checks the root node alone, learns its binders, and leaves its parts for later. -/
theorem visit_eq (known : List Name) (e : Expr) :
    visit known e = (do
      e.checkHere known
      return ⟨e.binders.map Binder.name, e.visited⟩) := by
  cases e with
  | int | bool | null | ident | prim | unary | binary | call | map | cond => rfl
  | letIn =>
      simp [visit, Expr.checkHere, Expr.binders, Expr.visited, Expr.parts, Function.comp_def]

theorem visit_eq_ok {known : List Name} {e : Expr} (h : e.checkHere known = .ok ()) :
    visit known e = .ok ⟨e.binders.map Binder.name, e.visited⟩ := by
  rw [visit_eq, h]
  rfl

theorem sizeList_visited_lt {known : List Name} {e : Expr} (h : e.checkHere known = .ok ()) :
    Expr.sizeList e.visited < e.size :=
  sizeList_visit_lt (visit_eq_ok h)

theorem visit_eq_error {known : List Name} {e : Expr} {err : ScopeError}
    (h : e.checkHere known = .error err) : visit known e = .error err := by
  rw [visit_eq, h]
  rfl

/-! ## What holds of everything in the queue -/

/-- The expression passes the lexical check within a scope whose names are all known. -/
def Sheltered (known : List Name) (e : Expr) : Prop :=
  ∃ scope, (∀ name ∈ scope, inScope known name = true) ∧ checkIn scope e = .ok ()

section

variable {known scope : List Name} {e : Expr}

theorem inScope_iff {name : Name} :
    inScope known name = true ↔ ∃ n ∈ known, n.index = name.index := by
  simp [inScope]

theorem inScope_append {more : List Name} {name : Name} (h : inScope known name = true) :
    inScope (more ++ known) name = true := by
  obtain ⟨n, hn, heq⟩ := inScope_iff.1 h
  exact inScope_iff.2 ⟨n, List.mem_append_right more hn, heq⟩

/-- What is bound by a scope is bound by all names that are known. -/
theorem inScope_of_scope (hscope : ∀ name ∈ scope, inScope known name = true) {name : Name}
    (h : inScope scope name = true) : inScope known name = true := by
  obtain ⟨n, hn, heq⟩ := inScope_iff.1 h
  obtain ⟨n', hn', heq'⟩ := inScope_iff.1 (hscope n hn)
  exact inScope_iff.2 ⟨n', hn', heq'.trans heq⟩

theorem checkHere_of_scope (hscope : ∀ name ∈ scope, inScope known name = true)
    (h : e.checkHere scope = .ok ()) : e.checkHere known = .ok () := by
  cases e with
  | ident place name =>
      have hname : inScope scope name = true := by
        by_contra hfree
        simp [Expr.checkHere, checkBound, hfree] at h
      simp only [Expr.checkHere, checkBound, inScope_of_scope hscope hname, if_true]
  | int | bool | null | prim | unary | binary | call | map | cond | letIn => exact h

/-- The root node of a sheltered expression is accepted, and the parts that are visited later are
sheltered by then. -/
theorem Sheltered.visit (h : Sheltered known e) :
    e.checkHere known = .ok () ∧
      ∀ part ∈ e.visited, Sheltered (e.binders.map Binder.name ++ known) part := by
  obtain ⟨scope, hscope, hcheck⟩ := h
  rw [checkIn_eq, Except.andThen_eq_ok, forM_eq_ok_iff] at hcheck
  refine ⟨checkHere_of_scope hscope hcheck.1, fun part hpart => ?_⟩
  have hmem := Expr.mem_parts_of_mem_visited hpart
  rw [← Expr.map_snd_scopes] at hmem
  obtain ⟨⟨opened, _⟩, hopened, rfl⟩ := List.mem_map.1 hmem
  refine ⟨opened.map Binder.name ++ scope, fun name hname => ?_, hcheck.2 _ hopened⟩
  rcases List.mem_append.1 hname with hname | hname
  · obtain ⟨b, hb, rfl⟩ := List.mem_map.1 hname
    have hbinder := Expr.subset_binders_of_mem_scopes hopened hb
    exact inScope_iff.2 ⟨b.name, List.mem_append_left _ (List.mem_map_of_mem hbinder), rfl⟩
  · exact inScope_append (hscope name hname)

theorem Sheltered.append (h : Sheltered known e) (more : List Name) :
    Sheltered (more ++ known) e := by
  obtain ⟨scope, hscope, hcheck⟩ := h
  exact ⟨scope, fun name hname => inScope_append (hscope name hname), hcheck⟩

/-- A queue of sheltered expressions is worked off to its end. -/
theorem walkFlat_of_sheltered {queue : List Expr} (h : ∀ e ∈ queue, Sheltered known e) :
    walkFlat known queue = .ok () := by
  -- One visit keeps the queue sheltered; the induction is that of the walk.
  fun_induction walkFlat known queue with
  | case1 => rfl
  | case2 known e rest err hvisit =>
      obtain ⟨hhere, -⟩ := (h e (by simp)).visit
      rw [visit_eq_ok hhere] at hvisit
      cases hvisit
  | case3 known e rest v hvisit ih =>
      obtain ⟨hhere, hparts⟩ := (h e (by simp)).visit
      rw [visit_eq_ok hhere] at hvisit
      cases hvisit
      refine ih fun e' he' => ?_
      rcases List.mem_append.1 he' with hrest | hpart
      · exact (h e' (by simp [hrest])).append _
      · exact hparts e' hpart

end

/-- The flat check accepts what the lexical check accepts. -/
theorem checkFlat_of_checkLexical {root : Expr} (h : checkLexical root = .ok ()) :
    checkFlat root = .ok () := by
  refine walkFlat_of_sheltered fun e he => ?_
  obtain rfl := List.mem_singleton.1 he
  exact ⟨[], nofun, h⟩

/-! ## The walk over a table -/

namespace Node

/-- The names that a row binds. -/
def binders : Node → List Binder
  | map _ params _ => params
  | letIn _ defs _ => defs.map Prod.fst
  | _ => []

/-- The rows that the flat check visits later: all children but the callee of a call. -/
def visited : Node → List Nat
  | call _ _ args => args
  | node => node.scopes.map Prod.snd

/-- The walk does with the expression what it does with the row. -/
structure Tracks (trees : Array Expr) (node : Node) (e : Expr) : Prop where
  demand : e.demand? = node.demand?
  binders : e.binders = node.binders
  visited : e.visited.map some = node.visited.map fun i => trees[i]?

theorem Tracks.of_build? {before : Array Expr} {node : Node} {e : Expr}
    (hchildren : ∀ part ∈ node.scopes, part.2 < before.size) (h : node.build? before = some e) :
    Tracks before node e := by
  cases node with
  | int | bool | null | ident | prim =>
      cases h
      exact ⟨rfl, rfl, rfl⟩
  | unary | binary | map | cond =>
      simp only [Node.scopes, List.forall_mem_cons, List.not_mem_nil, false_implies,
        implies_true, and_true] at hchildren
      simp only [build?, hchildren, getElem?_pos, Option.pure_def, Option.bind_eq_bind,
        Option.bind_some, Option.some.injEq] at h
      subst h
      exact ⟨rfl, rfl, by simp [Expr.visited, Expr.parts, Node.visited, Node.scopes, hchildren]⟩
  | call span callee args =>
      simp only [Node.scopes, List.forall_mem_cons, List.forall_mem_map] at hchildren
      obtain ⟨es, hes, hmap⟩ := mapM_lookup hchildren.2
      simp only [build?, hchildren.1, getElem?_pos, hes, Option.pure_def, Option.bind_eq_bind,
        Option.bind_some, Option.some.injEq] at h
      subst h
      exact ⟨rfl, rfl, hmap⟩
  | letIn span defs body =>
      simp only [Node.scopes, List.forall_mem_append, List.forall_mem_map,
        List.forall_mem_singleton] at hchildren
      obtain ⟨es, hes, hmap⟩ := mapM_lookup hchildren.1
      have hlength : es.length = defs.length := by simpa using congrArg List.length hmap
      simp only [build?, hchildren.2, getElem?_pos, hes, Option.pure_def, Option.bind_eq_bind,
        Option.bind_some, Option.some.injEq] at h
      subst h
      -- There is one initializer for each name, so zipping them loses nothing.
      have hnames : ((defs.map Prod.fst).zip es).map Prod.fst = defs.map Prod.fst :=
        List.map_fst_zip (by simp [hlength])
      have hinits : ((defs.map Prod.fst).zip es).map Prod.snd = es :=
        List.map_snd_zip (by simp [hlength])
      refine ⟨by simp only [Expr.demand?, demand?, hnames], hnames, ?_⟩
      simp [Expr.visited, Expr.parts, Node.visited, Node.scopes, hinits, hmap, hchildren.2,
        Function.comp_def]

/-- The rows that are left after a visit stand for the expressions that are left after it. -/
theorem Tracks.append {trees : Array Expr} {node : Node} {e : Expr} (h : Tracks trees node e)
    {queue : List Nat} {es : List Expr} (hqueue : queue.map (fun i => trees[i]?) = es.map some) :
    (queue ++ node.visited).map (fun i => trees[i]?) = (es ++ e.visited).map some := by
  rw [List.map_append, List.map_append, hqueue, h.visited]

theorem Tracks.push {trees : Array Expr} {node : Node} {e : Expr} (h : Tracks trees node e)
    (last : Expr) : Tracks (trees.push last) node e := by
  refine ⟨h.demand, h.binders, h.visited.trans (List.map_congr_left fun i hi => ?_)⟩
  have hmem : trees[i]? ∈ e.visited.map some := by
    rw [h.visited]
    exact List.mem_map_of_mem (f := fun i => trees[i]?) hi
  obtain ⟨part, -, hpart⟩ := List.mem_map.1 hmem
  have hlt : i < trees.size := (Array.getElem?_eq_some_iff.1 hpart.symm).1
  simp only [Array.getElem?_push, Nat.ne_of_lt hlt, if_false]

/-- The walk does with the expressions of a table what it does with its rows. -/
def Tracked (nodes : List Node) (trees : Array Expr) : Prop :=
  ∀ (i : Nat) (node : Node) (e : Expr), nodes[i]? = some node → trees[i]? = some e →
    Tracks trees node e

theorem Tracked.push {nodes : List Node} {trees : Array Expr} {node : Node} {e : Expr}
    (h : Tracked nodes trees) (hsize : trees.size = nodes.length) (hnode : Tracks trees node e) :
    Tracked (nodes ++ [node]) (trees.push e) := by
  intro i other found hother hfound
  rw [Array.getElem?_push] at hfound
  rw [List.getElem?_append] at hother
  split at hfound
  next hlast =>
    rw [if_neg (by omega), hlast, hsize] at hother
    cases hfound
    simp only [Nat.sub_self, List.getElem?_cons_zero, Option.some.injEq] at hother
    exact hother ▸ hnode.push e
  next hlast =>
    have hlt : i < trees.size := (Array.getElem?_eq_some_iff.1 hfound).1
    rw [if_pos (hsize ▸ hlt)] at hother
    exact (h i other found hother hfound).push e

theorem tracked_of_buildFrom? {done rest : List Node} {before trees : Array Expr}
    (hordered : IsOrdered (done ++ rest)) (hsize : before.size = done.length)
    (hdone : Tracked done before) (h : buildFrom? before rest = some trees) :
    Tracked (done ++ rest) trees := by
  induction rest generalizing done before with
  | nil =>
      cases h
      simpa using hdone
  | cons node rest ih =>
      simp only [buildFrom?] at h
      split at h
      next e hbuild =>
        have hrow : ∀ part ∈ node.scopes, part.2 < before.size := by
          rw [hsize]
          exact hordered done.length node (by simp)
        have hnext := hdone.push hsize (.of_build? hrow hbuild)
        simpa using ih (by simpa using hordered) (by simp [hsize]) hnext h
      next => cases h

end Node

/-- A state of the flat check over a table: the binders met so far, and the rows to visit. -/
structure FlatWalk where
  known : List Binder
  queue : List Nat

namespace FlatWalk

/-- One visit: what the row at the front asks is met, its binders are learned, and the rows to visit
later go to the end. -/
inductive Step (nodes : List Node) : FlatWalk → FlatWalk → Prop
  | visit {known : List Binder} {i : Nat} {rest : List Nat} {node : Node}
      (hnode : nodes[i]? = some node) (hmet : ∀ d, node.demand? = some d → d.Met known) :
      Step nodes ⟨known, i :: rest⟩ ⟨node.binders ++ known, rest ++ node.visited⟩

/-- The given number of visits, one after the other. -/
inductive Runs (nodes : List Node) : Nat → FlatWalk → FlatWalk → Prop
  | stay (w : FlatWalk) : Runs nodes 0 w w
  | step {n : Nat} {w w' w'' : FlatWalk} (h : Step nodes w w') (hrest : Runs nodes n w' w'') :
      Runs nodes (n + 1) w w''

/-- The walk stops here with the given verdict: nothing is left to visit, or what the row at the
front asks is not met and the error says why. -/
def Ends (nodes : List Node) (w : FlatWalk) : Except ScopeError Unit → Prop
  | .ok () => w.queue = []
  | .error err => ∃ i rest node d, w.queue = i :: rest ∧ nodes[i]? = some node ∧
      node.demand? = some d ∧ d.Explains w.known err

section

variable {nodes : List Node} {trees : Array Expr}

/-- The walk over the rows stops with the verdict of the walk over their expressions. -/
theorem exists_runs (hall : Node.Depicted nodes trees) (htracked : Node.Tracked nodes trees)
    (known : List Binder) (queue : List Nat) (es : List Expr)
    (hqueue : queue.map (fun i => trees[i]?) = es.map some) :
    ∃ n w, Runs nodes n ⟨known, queue⟩ w ∧ w.Ends nodes (walkFlat (known.map Binder.name) es) := by
  match queue, es with
  | [], [] => exact ⟨0, _, .stay _, by rw [walkFlat]; rfl⟩
  | [], _ :: _ | _ :: _, [] => simp at hqueue
  | i :: rest, e :: es =>
      simp only [List.map_cons, List.cons.injEq] at hqueue
      obtain ⟨node, hnode, -⟩ := hall.exists_row hqueue.1
      have htracks := htracked i node e hnode hqueue.1
      cases hhere : e.checkHere (known.map Binder.name) with
      | error err =>
          obtain ⟨d, hd, hexplains⟩ := Expr.exists_of_checkHere_eq_error hhere
          refine ⟨0, _, .stay _, ?_⟩
          rw [walkFlat_cons, visit_eq_error hhere]
          exact ⟨i, rest, node, d, rfl, hnode, htracks.demand ▸ hd, hexplains⟩
      | ok =>
          have hless := sizeList_visited_lt hhere
          obtain ⟨n, w, hruns, hends⟩ :=
            exists_runs hall htracked (node.binders ++ known) _ _ (htracks.append hqueue.2)
          refine ⟨n + 1, w, .step (.visit hnode fun d hd => ?_) hruns, ?_⟩
          · exact Expr.checkHere_eq_ok_iff.1 hhere d (htracks.demand ▸ hd)
          · rw [walkFlat_cons, visit_eq_ok hhere]
            rw [List.map_append, ← htracks.binders] at hends
            exact hends
termination_by Expr.sizeList es
decreasing_by
  simp only [sizeList_append, Expr.sizeList]
  omega

/-- There are no more visits than nodes in the trees of the rows to visit. -/
theorem Runs.length_le (htracked : Node.Tracked nodes trees) {n : Nat} {w w' : FlatWalk}
    (h : Runs nodes n w w') {es : List Expr}
    (hqueue : w.queue.map (fun i => trees[i]?) = es.map some) : n ≤ Expr.sizeList es := by
  induction h generalizing es with
  | stay => exact Nat.zero_le _
  | step hstep _ ih =>
      obtain @⟨known, i, rest, node, hnode, hmet⟩ := hstep
      match es, hqueue with
      | e :: es, hqueue =>
          simp only [List.map_cons, List.cons.injEq] at hqueue
          have htracks := htracked i node e hnode hqueue.1
          have hhere : e.checkHere (known.map Binder.name) = .ok () :=
            Expr.checkHere_eq_ok_iff.2 fun d hd => hmet d (htracks.demand ▸ hd)
          have hless := sizeList_visited_lt hhere
          have hle := ih (htracks.append hqueue.2)
          simp only [sizeList_append, Expr.sizeList] at hle ⊢
          omega

end

end FlatWalk

/-- The flat check relaxes the lexical check.

Over a table whose rows stand behind their children, and may be shared by several parents, the walk
from a root stops: it makes no more visits than there are nodes below the root, each counted once for
every path to it, and it stops with the verdict of the flat check.  That check accepts every root
that the lexical check accepts. -/
theorem checkFlat_relaxes_checkLexical {nodes : List Node} {root : Nat}
    (hordered : Node.IsOrdered nodes) (hroot : root < nodes.length) :
    ∃ trees tree, Node.buildAll? nodes = some trees ∧ trees[root]? = some tree ∧
      (∀ n w, FlatWalk.Runs nodes n ⟨[], [root]⟩ w → n ≤ tree.size) ∧
      (∃ n w, FlatWalk.Runs nodes n ⟨[], [root]⟩ w ∧ w.Ends nodes (checkFlat tree)) ∧
      (checkLexical tree = .ok () → checkFlat tree = .ok ()) := by
  obtain ⟨trees, hbuild, hall⟩ : ∃ trees, Node.buildAll? nodes = some trees ∧
      Node.Depicted nodes trees :=
    @Node.exists_buildFrom? [] nodes #[] hordered ⟨rfl, by simp⟩
  have htracked : Node.Tracked nodes trees :=
    @Node.tracked_of_buildFrom? [] nodes #[] trees hordered rfl (by simp [Node.Tracked]) hbuild
  obtain ⟨tree, htree, -⟩ := hall.row root nodes[root] (List.getElem?_eq_getElem hroot)
  have hqueue : [root].map (fun i => trees[i]?) = [tree].map some := by simp [htree]
  refine ⟨trees, tree, hbuild, htree, fun n w hruns => ?_, ?_, checkFlat_of_checkLexical⟩
  · simpa [Expr.sizeList] using hruns.length_le htracked hqueue
  · exact FlatWalk.exists_runs hall htracked [] [root] [tree] hqueue

/-- In `let x := x; in x` with one variable in both places, the walk meets the binder before it
visits the variable twice: the flat check accepts what the lexical check rejects.  Within `map x to`
both accept it. -/
theorem checkFlat_relaxes_sharedVariable :
    Node.IsOrdered Node.sharedVariable ∧
      ∃ trees defs function, Node.buildAll? Node.sharedVariable = some trees ∧
        trees[1]? = some defs ∧ trees[2]? = some function ∧
        checkLexical defs ≠ .ok () ∧ checkFlat defs = .ok () ∧
        checkLexical function = .ok () ∧ checkFlat function = .ok () := by
  have hordered : Node.IsOrdered Node.sharedVariable := by
    intro i node hnode
    rcases i with _ | _ | _ | i
    · cases hnode
      decide
    · cases hnode
      decide
    · cases hnode
      decide
    · simp [Node.sharedVariable] at hnode
  obtain ⟨trees, function, hbuild, hfunction, -, -, hrelaxes⟩ :=
    checkFlat_relaxes_checkLexical hordered (by decide : 2 < Node.sharedVariable.length)
  cases hbuild
  cases hfunction
  refine ⟨hordered, _, _, _, rfl, rfl, rfl, ?_, ?_, rfl, hrelaxes rfl⟩
  · intro hok
    cases hok
  · with_unfolding_all rfl

end PolicyEval
