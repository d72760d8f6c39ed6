import Mathlib.Data.List.Pairwise
import Mathlib.Data.List.Perm.Basic
import Mathlib.Data.List.Nodup
import PolicyEval.Proofs.Arena.Tables
import PolicyEval.Proofs.Syntax.Numbering

/-!
# Node tables that list a tree in post-order

The nodes of a tree, listed with children before their parents and left before right, are a node
table: the number of a node is its position, so rows can name children by their numbers.  In such a
table the root is last, children stand before their parents, and every row but the last one is the
child of exactly one row.

* `Expr.node`, `Expr.nodes` — the row of a node, and the rows of all nodes in post-order.
* `Expr.toList_postorder` — the listing of a tree, by those of its parts.
* `Expr.IsNumbered.getElem?_postorder` — a node stands at the position that is its number.
* `Expr.IsNumbered.buildAll?_nodes` — the table gives the tree back.
* `Expr.children_perm` — all children of all nodes, and the root, are all nodes.
* `Arena.IsTreeAt`, `Expr.IsNumbered.isTreeAt` — the shape of the table.
-/

namespace PolicyEval

/-- The positions that a row names as those of its children, from left to right. -/
def Node.children : Node → List Nat
  | unary _ _ operand => [operand]
  | binary _ _ left right => [left, right]
  | call _ callee args => callee :: args
  | map _ _ body => [body]
  | cond _ test yes no => [test, yes, no]
  | letIn _ defs body => defs.map Prod.snd ++ [body]
  | _ => []

namespace Expr

/-! ## Rows -/

/-- The row of the root node, with its children under their numbers. -/
def node : Expr → Node
  | int p n => .int p.span n
  | bool p b => .bool p.span b
  | null p => .null p.span
  | ident p name => .ident p.span name
  | prim p q => .prim p.span q
  | unary p op operand => .unary p.span op operand.nodeId
  | binary p op left right => .binary p.span op left.nodeId right.nodeId
  | call p callee args => .call p.span callee.nodeId (args.map nodeId)
  | map p params body => .map p.span params body.nodeId
  | cond p test yes no => .cond p.span test.nodeId yes.nodeId no.nodeId
  | letIn p defs body => .letIn p.span (defs.map fun d => (d.1, d.2.nodeId)) body.nodeId

/-- The rows of all nodes in post-order. -/
def nodes (e : Expr) : List Node := e.postorder.toList.map node

theorem children_node (e : Expr) : e.node.children = e.parts.map nodeId := by
  cases e <;> simp [node, Node.children, parts]

theorem span_node (e : Expr) : e.node.span = e.span := by
  cases e <;> rfl

theorem toList_pushNodesList (es : List Expr) :
    (pushNodesList #[] es).toList = es.flatMap fun e => e.postorder.toList := by
  induction es with
  | nil => rfl
  | cons e es ih =>
      rw [pushNodesList, pushNodesList_eq, Array.toList_append, ih, List.flatMap_cons, postorder]

theorem toList_pushNodesDefs (ds : List (Binder × Expr)) :
    (pushNodesDefs #[] ds).toList = (ds.map Prod.snd).flatMap fun e => e.postorder.toList := by
  induction ds with
  | nil => rfl
  | cons d ds ih =>
      obtain ⟨b, e⟩ := d
      rw [pushNodesDefs, pushNodesDefs_eq, Array.toList_append, ih, List.map_cons,
        List.flatMap_cons, postorder]

/-- The nodes of a tree are those of its parts, from left to right, and then the root. -/
theorem toList_postorder (e : Expr) :
    e.postorder.toList = (e.parts.flatMap fun part => part.postorder.toList) ++ [e] := by
  cases e with
  | int | bool | null | ident | prim | unary | map => simp [postorder, pushNodes, parts]
  | binary place op left right =>
      rw [postorder, pushNodes, pushNodes_eq]
      simp [postorder, parts]
  | call place callee args =>
      rw [postorder, pushNodes, pushNodesList_eq, Array.toList_push, Array.toList_append,
        toList_pushNodesList]
      simp [parts, postorder]
  | cond place test yes no =>
      rw [postorder, pushNodes, pushNodes_eq, pushNodes_eq _ yes]
      simp [postorder, parts]
  | letIn place defs body =>
      rw [postorder, pushNodes, pushNodes_eq, Array.toList_push, Array.toList_append,
        toList_pushNodesDefs]
      simp [parts, postorder]

theorem nodes_eq (e : Expr) : e.nodes = e.parts.flatMap nodes ++ [e.node] := by
  rw [nodes, toList_postorder, List.map_append, List.map_flatMap, List.map_singleton]
  rfl

/-- The nodes of a node of a tree are nodes of the tree. -/
theorem mem_postorder_trans {e d x : Expr} (hd : d ∈ e.postorder) (hx : x ∈ d.postorder) :
    x ∈ e.postorder := by
  have hsub : ∀ d ∈ e.postorder, ∀ x ∈ d.postorder, x ∈ e.postorder :=
    forall_mem_postorder (p := fun d => ∀ x ∈ d.postorder, x ∈ e.postorder)
      (fun _ h part hpart x hx => h x (mem_postorder.2 (.inr ⟨part, hpart, hx⟩)))
      fun _ hx => hx
  exact hsub d hd x hx

theorem mem_postorder_of_mem_parts {e d part : Expr} (hd : d ∈ e.postorder)
    (hpart : part ∈ d.parts) : part ∈ e.postorder :=
  mem_postorder_trans hd (mem_postorder.2 (.inr ⟨part, hpart, mem_postorder.2 (.inl rfl)⟩))

/-! ## Numbers -/

/-- All children of all nodes, and the root, are all nodes, each of them once. -/
theorem children_perm (e : Expr) :
    ((e.postorder.toList.flatMap fun d => d.parts.map nodeId) ++ [e.nodeId]).Perm
      (e.postorder.toList.map nodeId) := by
  induction hsize : e.size using Nat.strongRecOn generalizing e with
  | ind n ih =>
      subst hsize
      rw [toList_postorder, List.flatMap_append, List.flatMap_assoc, List.map_append,
        List.map_flatMap, List.flatMap_singleton, List.map_singleton]
      refine List.Perm.append_right _ ?_
      -- The number of a part moves behind what is below that part.
      have hparts : e.parts.map nodeId = e.parts.flatMap fun part => [part.nodeId] := by
        rw [← List.map_eq_flatMap]
      rw [hparts]
      refine (List.flatMap_append_perm _ _ _).trans (List.Perm.flatMap_left _ fun part hpart => ?_)
      exact ih _ (size_lt_of_mem_parts hpart) part rfl

variable {e d part : Expr}

/-- The numbers of the nodes go up in post-order. -/
def IsAscending (e : Expr) : Prop := (e.postorder.toList.map nodeId).Pairwise (· < ·)

theorem IsNumbered.isAscending {n : Nat} (h : e.IsNumbered n) : e.IsAscending := by
  rw [IsAscending, postorder, IsNumbered.nodeIds e h]
  exact List.pairwise_lt_range'

theorem IsAscending.of_mem_parts (e : Expr) (h : e.IsAscending) :
    ∀ part ∈ e.parts, part.IsAscending := by
  intro part hpart
  rw [IsAscending, toList_postorder, List.map_append, List.map_flatMap] at h
  exact (List.pairwise_flatMap.1 (List.pairwise_append.1 h).1).1 part hpart

theorem IsAscending.nodeId_lt (h : e.IsAscending) (hpart : part ∈ e.parts) :
    part.nodeId < e.nodeId := by
  rw [IsAscending, toList_postorder, List.map_append] at h
  refine (List.pairwise_append.1 h).2.2 _ (List.mem_map_of_mem ?_) _ (List.mem_singleton.2 rfl)
  exact List.mem_flatMap.2 ⟨part, hpart, Array.mem_toList_iff.2 (mem_postorder.2 (.inl rfl))⟩

namespace IsNumbered

variable (h : e.IsNumbered 0)
include h

theorem map_nodeId : e.postorder.toList.map nodeId = List.range e.size := by
  rw [postorder, IsNumbered.nodeIds e h, List.range_eq_range']

/-- A node stands at the position that is its number. -/
theorem getElem?_postorder {i : Nat} :
    e.postorder.toList[i]? = some d ↔ d ∈ e.postorder ∧ d.nodeId = i := by
  have hid {i : Nat} {d : Expr} (hget : e.postorder.toList[i]? = some d) : d.nodeId = i := by
    have hmap := congrArg (·[i]?) h.map_nodeId
    simp only [List.getElem?_map, hget, Option.map_some] at hmap
    obtain ⟨hlt, heq⟩ := List.getElem?_eq_some_iff.1 hmap.symm
    rw [← heq, List.getElem_range]
  constructor
  · intro hget
    exact ⟨Array.mem_toList_iff.1 (List.mem_of_getElem? hget), hid hget⟩
  · rintro ⟨hd, rfl⟩
    obtain ⟨j, hget⟩ := List.getElem?_of_mem (Array.mem_toList_iff.2 hd)
    rw [hid hget, hget]

theorem nodeId_lt (hd : d ∈ e.postorder) (hpart : part ∈ d.parts) : part.nodeId < d.nodeId :=
  (forall_mem_postorder IsAscending.of_mem_parts h.isAscending d hd).nodeId_lt hpart

theorem nodeId_add_one : e.nodeId + 1 = e.size := by
  have hids := h.map_nodeId
  obtain ⟨n, hn⟩ := Nat.exists_eq_add_of_lt e.size_pos
  rw [toList_postorder, List.map_append, hn, Nat.zero_add, List.range_succ] at hids
  rw [hn, List.cons.inj (List.append_inj_right' hids rfl) |>.1, Nat.zero_add]

end IsNumbered

/-! ## From the table back to the tree -/

theorem mapM_nodeId {before : Array Expr} {es : List Expr}
    (h : ∀ e ∈ es, before[e.nodeId]? = some e) :
    ((es.map nodeId).mapM fun id => before[id]?) = some es := by
  induction es with
  | nil => rfl
  | cons e es ih =>
      have hes := ih fun e' he' => h e' (List.mem_cons_of_mem _ he')
      simp [List.mapM_cons, h e (List.mem_cons_self), hes]

/-- A row gives its node back over nodes before it that have its children at their places. -/
theorem build?_node {before : Array Expr} {e : Expr} (hid : e.nodeId = before.size)
    (h : ∀ part ∈ e.parts, before[part.nodeId]? = some part) :
    e.node.build? before = some e := by
  have hplace : (⟨before.size, e.span⟩ : Place) = e.place := by rw [← hid]; rfl
  cases e with
  | int | bool | null | ident | prim =>
      simpa [node, Node.build?, span, place] using hplace
  | unary p op operand =>
      simpa [node, Node.build?, span, place, h operand (by simp [parts])] using hplace
  | binary p op left right =>
      simpa [node, Node.build?, span, place, h left (by simp [parts]), h right (by simp [parts])]
        using hplace
  | call p callee args =>
      have hargs := mapM_nodeId fun arg harg => h arg (List.mem_cons_of_mem _ harg)
      simpa [node, Node.build?, span, place, h callee (by simp [parts]), hargs] using hplace
  | map p params body =>
      simpa [node, Node.build?, span, place, h body (by simp [parts])] using hplace
  | cond p test yes no =>
      simpa [node, Node.build?, span, place, h test (by simp [parts]), h yes (by simp [parts]),
        h no (by simp [parts])] using hplace
  | letIn p defs body =>
      have hinits := mapM_nodeId fun init hinit => h init (List.mem_append_left _ hinit)
      have hzip : (defs.map Prod.fst).zip (defs.map Prod.snd) = defs := by
        rw [List.zip_map', List.map_id'']
        exact fun d => rfl
      have hlookup : (defs.map fun d => (d.1, d.2.nodeId)).mapM (fun d => before[d.2]?) =
          some (defs.map Prod.snd) := by
        rw [← hinits, List.map_map, List.mapM_map, List.mapM_map]
        rfl
      have hnames : (defs.map fun d => (d.1, d.2.nodeId)).map Prod.fst = defs.map Prod.fst := by
        rw [List.map_map]
        rfl
      simp only [node, Node.build?, hlookup, hnames, h body (by simp [parts])]
      simpa [span, place, hzip] using hplace

/-- Rows of nodes at the positions that are their numbers, each behind its parts, give the nodes
back. -/
theorem buildFrom?_map_node (es : List Expr) (before : Array Expr)
    (h : ∀ front e back, es = front ++ e :: back → e.nodeId = before.size + front.length ∧
      ∀ part ∈ e.parts, (before ++ front.toArray)[part.nodeId]? = some part) :
    Node.buildFrom? before (es.map node) = some (before ++ es.toArray) := by
  induction es generalizing before with
  | nil => simp [Node.buildFrom?]
  | cons e es ih =>
      obtain ⟨hid, hparts⟩ := h [] e es rfl
      have hbuild : e.node.build? before = some e :=
        build?_node hid fun part hpart => by simpa using hparts part hpart
      rw [List.map_cons, Node.buildFrom?, hbuild]
      dsimp only
      rw [ih, Array.push_eq_append, Array.append_assoc]
      · simp
      · intro front d back hsplit
        obtain ⟨hid, hparts⟩ := h (e :: front) d back (by rw [hsplit, List.cons_append])
        refine ⟨?_, fun part hpart => ?_⟩
        · rw [hid, Array.size_push, List.length_cons]
          omega
        · rw [← hparts part hpart]
          simp

/-- The table of a tree gives the tree back, with all its nodes in post-order. -/
theorem IsNumbered.buildAll?_nodes {e : Expr} (h : e.IsNumbered 0) :
    Node.buildAll? e.nodes = some e.postorder := by
  have hbuild : Node.buildFrom? #[] (e.postorder.toList.map node) =
      some (#[] ++ e.postorder.toList.toArray) := by
    refine buildFrom?_map_node e.postorder.toList #[] fun front d back hsplit => ?_
    have hget : e.postorder.toList[front.length]? = some d := by
      rw [hsplit, List.getElem?_append_right (Nat.le_refl _), Nat.sub_self, List.getElem?_cons_zero]
    obtain ⟨hd, hid⟩ := h.getElem?_postorder.1 hget
    refine ⟨by simp [hid], fun part hpart => ?_⟩
    -- The part has a smaller number, so it is among the nodes in front.
    have hlt := h.nodeId_lt hd hpart
    rw [hid] at hlt
    have hpos := h.getElem?_postorder.2 ⟨mem_postorder_of_mem_parts hd hpart, rfl⟩
    rw [hsplit, List.getElem?_append_left hlt] at hpos
    simpa using hpos
  rw [Node.buildAll?, nodes, hbuild]
  simp

end Expr

/-! ## The shape of the table -/

namespace Arena

/-- The positions that the row at a position names as those of its children. -/
def children (arena : Arena) (i : Nat) : List Nat := (arena.nodes[i]?.map Node.children).getD []

/-- The rows form one tree: the root is the last row, children stand before their parents, and
every other row is the child of exactly one row, in one place. -/
structure IsTreeAt (arena : Arena) (root : Nat) : Prop where
  root_last : root + 1 = arena.rows.length
  child_lt : ∀ i, ∀ c ∈ arena.children i, c < i
  one_parent : ∀ c < root, ∃! i, c ∈ arena.children i
  one_place : ∀ i, (arena.children i).Nodup

end Arena

/-- The numbers of the parts of all nodes, in post-order. -/
def Expr.childTable (e : Expr) : List (List Nat) :=
  e.postorder.toList.map fun d => d.parts.map nodeId

theorem Expr.map_children_nodes (e : Expr) : e.nodes.map Node.children = e.childTable := by
  rw [nodes, childTable, List.map_map]
  exact List.map_congr_left fun d _ => children_node d

namespace Expr.IsNumbered

variable {e d : Expr} {arena : Arena} (h : e.IsNumbered 0)
  (harena : arena.nodes.map Node.children = e.childTable)
include h harena

theorem children_eq (hd : d ∈ e.postorder) : arena.children d.nodeId = d.parts.map nodeId := by
  rw [Arena.children, ← List.getElem?_map, harena, childTable, List.getElem?_map,
    h.getElem?_postorder.2 ⟨hd, rfl⟩]
  rfl

/-- A row has no children, or it is the row of a node. -/
theorem children_cases (i : Nat) :
    arena.children i = [] ∨ ∃ d ∈ e.postorder, d.nodeId = i := by
  cases hget : e.postorder.toList[i]? with
  | none =>
      refine .inl ?_
      rw [Arena.children, ← List.getElem?_map, harena, childTable, List.getElem?_map, hget]
      rfl
  | some d => exact .inr ⟨d, h.getElem?_postorder.1 hget⟩

theorem mem_children {i c : Nat} :
    c ∈ arena.children i ↔ ∃ d ∈ e.postorder, d.nodeId = i ∧ ∃ part ∈ d.parts, part.nodeId = c := by
  constructor
  · intro hc
    rcases h.children_cases harena i with hnil | ⟨d, hd, rfl⟩
    · rw [hnil] at hc
      cases hc
    · rw [h.children_eq harena hd] at hc
      exact ⟨d, hd, rfl, List.mem_map.1 hc⟩
  · rintro ⟨d, hd, rfl, hc⟩
    rw [h.children_eq harena hd]
    exact List.mem_map.2 hc

theorem length_rows : arena.rows.length = e.size := by
  have hlisted := congrArg List.length h.map_nodeId
  have hfiled := congrArg List.length harena
  rw [List.length_map, List.length_range] at hlisted
  rw [Arena.nodes, childTable, List.length_map, List.length_map, List.length_map, hlisted] at hfiled
  exact hfiled

/-- A table that lists a tree in post-order is the table of one tree. -/
theorem isTreeAt : arena.IsTreeAt e.nodeId := by
  -- All children of all nodes are the numbers below the root's, each of them once.
  have hall : (e.postorder.toList.flatMap fun d => d.parts.map nodeId).Perm
      (List.range e.nodeId) := by
    have hperm := e.children_perm
    rw [h.map_nodeId, ← h.nodeId_add_one, List.range_succ] at hperm
    exact (List.perm_append_right_iff _).1 hperm
  obtain ⟨hnodup, hdisjoint⟩ := List.nodup_flatMap.1 (hall.nodup_iff.2 List.nodup_range)
  refine ⟨by rw [h.nodeId_add_one, h.length_rows harena], ?_, ?_, ?_⟩
  · intro i c hc
    obtain ⟨d, hd, rfl, part, hpart, rfl⟩ := (h.mem_children harena).1 hc
    exact h.nodeId_lt hd hpart
  · intro c hc
    obtain ⟨d, hd, hmem⟩ := List.mem_flatMap.1 (hall.mem_iff.2 (List.mem_range.2 hc))
    have hchild : c ∈ arena.children d.nodeId := by
      rwa [h.children_eq harena (Array.mem_toList_iff.1 hd)]
    refine ⟨d.nodeId, hchild, fun i hi => ?_⟩
    obtain ⟨d', hd', rfl, hmem'⟩ := (h.mem_children harena).1 hi
    by_contra hne
    have hsymm : Std.Symm (Function.onFun List.Disjoint fun d : Expr => d.parts.map nodeId) :=
      ⟨fun _ _ hapart _ hc hc' => hapart hc' hc⟩
    exact hdisjoint.forall hd (Array.mem_toList_iff.2 hd') (fun heq => hne (by rw [heq])) hmem
      (List.mem_map.2 hmem')
  · intro i
    rcases h.children_cases harena i with hnil | ⟨d, hd, rfl⟩
    · rw [hnil]
      exact List.nodup_nil
    · rw [h.children_eq harena hd]
      exact hnodup d (Array.mem_toList_iff.2 hd)

end Expr.IsNumbered

end PolicyEval
