import PolicyEval.Expr.Table

/-!
# Arenas — node tables whose lists stand in side tables

An arena keeps the nodes of an expression in one table and the lists that nodes have, which are the
arguments of calls, parameters and definitions, in three side tables.  A row names its children by
position and its list by a range of the side table.  Nodes are filed one at a time: the list of a
node goes behind its side table, and then the row behind the node table.

Whatever is filed in whatever order, the ranges of a side table follow one another without gaps, and
every row can still be looked up as it was filed.

* `Row`, `Arena` — rows with ranges, and the four tables.
* `Arena.file`, `Arena.fileAll` — files a node, or nodes one after another.
* `Arena.nodes` — the nodes of an arena, with their lists looked up.
* `Abut`, `Abut.isPartition` — ranges that follow one another partition their table.
* `Arena.IsTidy`, `Arena.IsTidy.file`, `Arena.IsTidy.fileAll` — the ranges of an arena.
* `Arena.IsTidy.nodes_fileAll` — nothing that is filed later changes what was filed before.
-/

namespace PolicyEval

/-! ## Ranges -/

/-- Consecutive entries of a side table. -/
structure EntryRange where
  start : Nat
  length : Nat
deriving DecidableEq

namespace EntryRange

/-- The position behind the last entry. -/
def stop (r : EntryRange) : Nat := r.start + r.length

/-- The entries that the range has in a table. -/
def entries {α : Type} (r : EntryRange) (table : List α) : List α :=
  (table.drop r.start).take r.length

/-- The range of the entries that are put behind a table. -/
def behind {α : Type} (table added : List α) : EntryRange := ⟨table.length, added.length⟩

theorem entries_behind {α : Type} (table added : List α) :
    (behind table added).entries (table ++ added) = added := by
  simp [behind, entries]

theorem entries_append {α : Type} {r : EntryRange} {table : List α} (h : r.stop ≤ table.length)
    (added : List α) : r.entries (table ++ added) = r.entries table := by
  have hstop : r.start + r.length ≤ table.length := h
  rw [entries, entries, List.drop_append_of_le_length (by omega),
    List.take_append_of_le_length (by rw [List.length_drop]; omega)]

end EntryRange

/-- The ranges follow one another from the start of a table of the given size to its end. -/
inductive Abut : List EntryRange → Nat → Prop
  | nil : Abut [] 0
  | snoc {ranges : List EntryRange} {size : Nat} (h : Abut ranges size) (length : Nat) :
      Abut (ranges ++ [⟨size, length⟩]) (size + length)

/-- The ranges lie inside a table of the given size, no two of them overlap, and together they cover
it. -/
structure IsPartition (ranges : List EntryRange) (size : Nat) : Prop where
  inside : ∀ r ∈ ranges, r.stop ≤ size
  disjoint : ranges.Pairwise fun r r' => r.stop ≤ r'.start
  covers : ∀ k < size, ∃ r ∈ ranges, r.start ≤ k ∧ k < r.stop

theorem Abut.isPartition {ranges : List EntryRange} {size : Nat} (h : Abut ranges size) :
    IsPartition ranges size := by
  induction h with
  | nil => exact ⟨by simp, .nil, by simp⟩
  | @snoc ranges size h length ih =>
      have hlast : (⟨size, length⟩ : EntryRange).stop = size + length := rfl
      refine ⟨?_, ?_, ?_⟩
      · intro r hr
        rcases List.mem_append.1 hr with hr | hr
        · exact Nat.le_trans (ih.inside r hr) (Nat.le_add_right _ _)
        · rw [List.mem_singleton.1 hr]
          exact Nat.le_of_eq hlast
      · refine List.pairwise_append.2 ⟨ih.disjoint, List.pairwise_singleton _ _, ?_⟩
        intro r hr r' hr'
        rw [List.mem_singleton.1 hr']
        exact ih.inside r hr
      · intro k hk
        by_cases hold : k < size
        · obtain ⟨r, hr, hcover⟩ := ih.covers k hold
          exact ⟨r, List.mem_append_left _ hr, hcover⟩
        · exact ⟨⟨size, length⟩, List.mem_append_right _ (List.mem_singleton.2 rfl),
            Nat.le_of_not_lt hold, hlast ▸ hk⟩

/-! ## Arenas -/

/-- The span of a node. -/
def Node.span : Node → Span
  | int s _ | bool s _ | null s | ident s _ | prim s _ | unary s _ _ | binary s _ _ _
  | call s _ _ | map s _ _ | cond s _ _ _ | letIn s _ _ => s

/-- A row of the node table of an arena. -/
inductive Row where
  | int (span : Span) (value : Int)
  | bool (span : Span) (value : Bool)
  | null (span : Span)
  | ident (span : Span) (name : Name)
  | prim (span : Span) (p : Prim)
  | unary (span : Span) (op : UnaryOp) (operand : Nat)
  | binary (span : Span) (op : BinaryOp) (left right : Nat)
  | call (span : Span) (callee : Nat) (args : EntryRange)
  | map (span : Span) (params : EntryRange) (body : Nat)
  | cond (span : Span) (test yes no : Nat)
  | letIn (span : Span) (defs : EntryRange) (body : Nat)
deriving DecidableEq

namespace Row

/-- The span of a row. -/
def span : Row → Span
  | int s _ | bool s _ | null s | ident s _ | prim s _ | unary s _ _ | binary s _ _ _
  | call s _ _ | map s _ _ | cond s _ _ _ | letIn s _ _ => s

/-- The range of the arguments of a call. -/
def argRange? : Row → Option EntryRange
  | call _ _ args => some args
  | _ => none

/-- The range of the parameters of a function. -/
def paramRange? : Row → Option EntryRange
  | map _ params _ => some params
  | _ => none

/-- The range of the definitions of a `let`. -/
def defRange? : Row → Option EntryRange
  | letIn _ defs _ => some defs
  | _ => none

end Row

section

variable {rows : List Row} {row : Row} {range? : Row → Option EntryRange}

theorem Abut.skip {size : Nat} (h : Abut (rows.filterMap range?) size) (hrow : range? row = none) :
    Abut ((rows ++ [row]).filterMap range?) size := by
  rw [List.filterMap_append, List.filterMap_cons_none hrow, List.filterMap_nil, List.append_nil]
  exact h

theorem Abut.add {α : Type} {table : List α} (h : Abut (rows.filterMap range?) table.length)
    (added : List α) (hrow : range? row = some (.behind table added)) :
    Abut ((rows ++ [row]).filterMap range?) (table ++ added).length := by
  rw [List.filterMap_append, List.filterMap_cons_some hrow, List.filterMap_nil, List.length_append]
  exact h.snoc added.length

end

/-- The tables of an arena: nodes, arguments of calls, parameters and definitions. -/
structure Arena where
  rows : List Row
  args : List Nat
  params : List Binder
  defs : List (Binder × Nat)
deriving DecidableEq

namespace Arena

/-- The arena without entries. -/
def empty : Arena := ⟨[], [], [], []⟩

/-- The arena with one more row. -/
def addRow (arena : Arena) (row : Row) : Arena := { arena with rows := arena.rows ++ [row] }

/-- Files a node.  Its number is the number of rows before it. -/
def file (arena : Arena) : Node → Arena
  | .int span n => arena.addRow (.int span n)
  | .bool span b => arena.addRow (.bool span b)
  | .null span => arena.addRow (.null span)
  | .ident span name => arena.addRow (.ident span name)
  | .prim span p => arena.addRow (.prim span p)
  | .unary span op operand => arena.addRow (.unary span op operand)
  | .binary span op left right => arena.addRow (.binary span op left right)
  | .call span callee args =>
    { arena with args := arena.args ++ args }.addRow
      (.call span callee (.behind arena.args args))
  | .map span params body =>
    { arena with params := arena.params ++ params }.addRow
      (.map span (.behind arena.params params) body)
  | .cond span test yes no => arena.addRow (.cond span test yes no)
  | .letIn span defs body =>
    { arena with defs := arena.defs ++ defs }.addRow
      (.letIn span (.behind arena.defs defs) body)

/-- Files nodes one after another. -/
def fileAll (arena : Arena) (nodes : List Node) : Arena := nodes.foldl file arena

theorem fileAll_cons (arena : Arena) (node : Node) (nodes : List Node) :
    arena.fileAll (node :: nodes) = (arena.file node).fileAll nodes := rfl

theorem fileAll_append (arena : Arena) (nodes nodes' : List Node) :
    arena.fileAll (nodes ++ nodes') = (arena.fileAll nodes).fileAll nodes' :=
  List.foldl_append

/-- The node of a row, with its list looked up. -/
def node (arena : Arena) : Row → Node
  | .int span n => .int span n
  | .bool span b => .bool span b
  | .null span => .null span
  | .ident span name => .ident span name
  | .prim span p => .prim span p
  | .unary span op operand => .unary span op operand
  | .binary span op left right => .binary span op left right
  | .call span callee args => .call span callee (args.entries arena.args)
  | .map span params body => .map span (params.entries arena.params) body
  | .cond span test yes no => .cond span test yes no
  | .letIn span defs body => .letIn span (defs.entries arena.defs) body

/-- All nodes of an arena, in the order of its rows. -/
def nodes (arena : Arena) : List Node := arena.rows.map arena.node

/-- The span of the row at a position. -/
def spanAt (arena : Arena) (i : Nat) : Span := (arena.rows[i]?.map Row.span).getD default

theorem span_node (arena : Arena) (row : Row) : (arena.node row).span = row.span := by
  cases row <;> rfl

theorem spanAt_eq (arena : Arena) (i : Nat) :
    arena.spanAt i = (arena.nodes[i]?.map Node.span).getD default := by
  rw [spanAt, nodes, List.getElem?_map, Option.map_map]
  congr 2
  exact funext fun row => (span_node arena row).symm

/-- The ranges of a side table lie one behind another in the order of their rows. -/
structure IsTidy (arena : Arena) : Prop where
  args : Abut (arena.rows.filterMap Row.argRange?) arena.args.length
  params : Abut (arena.rows.filterMap Row.paramRange?) arena.params.length
  defs : Abut (arena.rows.filterMap Row.defRange?) arena.defs.length

theorem isTidy_empty : empty.IsTidy := ⟨.nil, .nil, .nil⟩

/-- Filing a node keeps the ranges in order. -/
theorem IsTidy.file {arena : Arena} (h : arena.IsTidy) (node : Node) :
    (arena.file node).IsTidy := by
  obtain ⟨hargs, hparams, hdefs⟩ := h
  cases node with
  | call span callee args => exact ⟨hargs.add args rfl, hparams.skip rfl, hdefs.skip rfl⟩
  | map span params body => exact ⟨hargs.skip rfl, hparams.add params rfl, hdefs.skip rfl⟩
  | letIn span defs body => exact ⟨hargs.skip rfl, hparams.skip rfl, hdefs.add defs rfl⟩
  | int | bool | null | ident | prim | unary | binary | cond =>
      exact ⟨hargs.skip rfl, hparams.skip rfl, hdefs.skip rfl⟩

/-- Filing nodes one after another keeps the ranges in order. -/
theorem IsTidy.fileAll {arena : Arena} (h : arena.IsTidy) (nodes : List Node) :
    (arena.fileAll nodes).IsTidy := by
  induction nodes generalizing arena with
  | nil => exact h
  | cons node nodes ih => exact ih (h.file node)

theorem length_rows_file (arena : Arena) (node : Node) :
    (arena.file node).rows.length = arena.rows.length + 1 := by
  cases node <;> simp [file, addRow]

/-- The rows that are already there stay where they are. -/
theorem rows_file (arena : Arena) (node : Node) :
    ∃ row, (arena.file node).rows = arena.rows ++ [row] ∧
      (arena.file node).node row = node := by
  cases node with
  | call | map | letIn =>
      exact ⟨_, rfl, by simp [Arena.node, file, addRow, EntryRange.entries_behind]⟩
  | int | bool | null | ident | prim | unary | binary | cond => exact ⟨_, rfl, rfl⟩

/-- The node of a row that was there before stays the same. -/
theorem IsTidy.node_file {arena : Arena} (h : arena.IsTidy) (node : Node) {row : Row}
    (hrow : row ∈ arena.rows) : (arena.file node).node row = arena.node row := by
  -- A list that is put behind a side table is behind all ranges of the table.
  cases row with
  | call span callee args =>
      have hstop : args.stop ≤ arena.args.length :=
        h.args.isPartition.inside args (List.mem_filterMap.2 ⟨_, hrow, rfl⟩)
      cases node <;> simp [Arena.node, Arena.file, addRow, EntryRange.entries_append hstop]
  | map span params body =>
      have hstop : params.stop ≤ arena.params.length :=
        h.params.isPartition.inside params (List.mem_filterMap.2 ⟨_, hrow, rfl⟩)
      cases node <;> simp [Arena.node, Arena.file, addRow, EntryRange.entries_append hstop]
  | letIn span defs body =>
      have hstop : defs.stop ≤ arena.defs.length :=
        h.defs.isPartition.inside defs (List.mem_filterMap.2 ⟨_, hrow, rfl⟩)
      cases node <;> simp [Arena.node, Arena.file, addRow, EntryRange.entries_append hstop]
  | int | bool | null | ident | prim | unary | binary | cond => rfl

theorem IsTidy.nodes_file {arena : Arena} (h : arena.IsTidy) (node : Node) :
    (arena.file node).nodes = arena.nodes ++ [node] := by
  obtain ⟨row, hrows, hnode⟩ := rows_file arena node
  have hold : arena.rows.map (arena.file node).node = arena.rows.map arena.node :=
    List.map_congr_left fun _ hrow => h.node_file node hrow
  rw [nodes, hrows, List.map_append, hold, List.map_singleton, hnode, nodes]

/-- The nodes that were filed are the nodes of the arena, in the same order. -/
theorem IsTidy.nodes_fileAll {arena : Arena} (h : arena.IsTidy) (nodes : List Node) :
    (arena.fileAll nodes).nodes = arena.nodes ++ nodes := by
  induction nodes generalizing arena with
  | nil => exact (List.append_nil _).symm
  | cons node nodes ih =>
      rw [fileAll_cons, ih (h.file node), h.nodes_file, List.append_assoc, List.singleton_append]

end Arena

end PolicyEval
