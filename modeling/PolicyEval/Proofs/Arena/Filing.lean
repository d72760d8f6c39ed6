import PolicyEval.Proofs.Arena.Nesting

/-!
# Reading into an arena

Expressions can be read without building trees: every node is filed in an arena as soon as it is
finished, a list that belongs to a node is kept aside until then, and parentheses file nothing.
What is read is named by its number, and its span is looked up in the arena.

Reading into an arena comes to the same as reading a tree and filing its nodes in post-order.  This
holds at every point of the reading: the arena is always the one before, followed by the nodes of
what was read since.

* `fileExpr` and its siblings — the readers.
* `Arena.ofTokens`, `Arena.ofSourceWith` — the arena of a token list or of a source.
* `Filed.Matches` — reading into an arena comes to the same as reading a tree.
* `fileExpr_matches` and its siblings — every reader does.
* `Arena.ofSourceWith_eq` — whole sources.
-/

namespace PolicyEval

/-! ## Readers -/

/-- What was read, the arena behind it, and the tokens left over, fewer than `bound`. -/
structure Filed (α : Type) (bound : Nat) where
  value : α
  arena : Arena
  rest : List Token
  fewer : rest.length < bound

/-- Files a node that was finished in front of the tokens left over. -/
def Filed.node {bound : Nat} (arena : Arena) (node : Node) (rest : List Token)
    (fewer : rest.length < bound) : Filed Nat bound :=
  ⟨arena.rows.length, arena.file node, rest, fewer⟩

mutual
/-- Reads an expression. -/
def fileExpr (stop : Span) (arena : Arena) (ts : List Token) :
    Except ParseError (Filed Nat ts.length) :=
  match ts with
  | ⟨.keyword .ifWord, _, span⟩ :: ts => do
    let ⟨test, arena, ts₁, h₁⟩ ← fileExpr stop arena ts
    let ⟨ts₂, h₂⟩ ← expectSign stop (.keyword .thenWord) .thenWord ts₁
    let ⟨yes, arena, ts₃, h₃⟩ ← fileExpr stop arena ts₂
    let ⟨ts₄, h₄⟩ ← expectSign stop (.keyword .elseWord) .elseWord ts₃
    let ⟨no, arena, rest, h₅⟩ ← fileExpr stop arena ts₄
    return .node arena (.cond (span.merge (arena.spanAt no)) test yes no) rest
      (by simp only [List.length_cons]; omega)
  | ⟨.keyword .letWord, _, span⟩ :: ts => do
    let ⟨defs, arena, ts₁, h₁⟩ ← fileDefs stop arena ts
    if defs.isEmpty then .error (.unexpected stop .definitionName ts)
    else
      let ⟨ts₂, h₂⟩ ← expectSign stop (.keyword .inWord) .inOrDefinition ts₁
      let ⟨body, arena, rest, h₃⟩ ← fileExpr stop arena ts₂
      return .node arena (.letIn (span.merge (arena.spanAt body)) defs body) rest
        (by simp only [List.length_cons]; omega)
  | ⟨.keyword .mapWord, _, span⟩ :: ts => do
    let (params, ⟨ts₁, h₁⟩) ← parseParams stop ts
    let ⟨body, arena, rest, h₂⟩ ← fileExpr stop arena ts₁
    return .node arena (.map (span.merge (arena.spanAt body)) params body) rest
      (by simp only [List.length_cons]; omega)
  | ts => fileBinary stop 0 arena ts
termination_by 5 * ts.length + 2

/-- Reads operands joined by binary operators of level `min` or higher. -/
def fileBinary (stop : Span) (min : Nat) (arena : Arena) (ts : List Token) :
    Except ParseError (Filed Nat ts.length) := do
  let ⟨left, arena, ts₁, h₁⟩ ← fileTerm stop arena ts
  let ⟨whole, arena, rest, h₂⟩ ← fileOperators stop min left arena ts₁
  return ⟨whole, arena, rest, by omega⟩
termination_by 5 * ts.length + 1

/-- Goes on behind the operand `left` while operators of level `min` or higher follow. -/
def fileOperators (stop : Span) (min left : Nat) (arena : Arena) (ts : List Token) :
    Except ParseError (Filed Nat (ts.length + 1)) :=
  match ts with
  | ⟨.operator op, text, span⟩ :: ts =>
    if op.precedence < min then
      .ok ⟨left, arena, ⟨.operator op, text, span⟩ :: ts, Nat.lt_succ_self _⟩
    else do
      let ⟨right, arena, ts₁, h₁⟩ ←
        if startsOpenForm ts then fileExpr stop arena ts
        else fileBinary stop (op.precedence + 1) arena ts
      let whole := .binary ((arena.spanAt left).merge (arena.spanAt right)) op left right
      let ⟨whole, arena, rest, h₂⟩ ←
        fileOperators stop min arena.rows.length (arena.file whole) ts₁
      return ⟨whole, arena, rest, by simp only [List.length_cons]; omega⟩
  | ts => .ok ⟨left, arena, ts, Nat.lt_succ_self _⟩
termination_by 5 * ts.length

/-- Reads a term: unary operators, then a constant, or a factor with its calls. -/
def fileTerm (stop : Span) (arena : Arena) (ts : List Token) :
    Except ParseError (Filed Nat ts.length) :=
  match ts with
  | [] => .error (.unexpected stop .expression [])
  | t :: ts =>
    match t.sign.unaryOp? with
    | some op => do
      let ⟨operand, arena, rest, h⟩ ← fileTerm stop arena ts
      return .node arena (.unary (t.span.merge (arena.spanAt operand)) op operand) rest
        (by simp only [List.length_cons]; omega)
    | none =>
      match t.sign with
      | .int n => .ok (.node arena (.int t.span n) ts (Nat.lt_succ_self _))
      | .bool b => .ok (.node arena (.bool t.span b) ts (Nat.lt_succ_self _))
      | .null => .ok (.node arena (.null t.span) ts (Nat.lt_succ_self _))
      | .prim p => fileCalls stop arena.rows.length (arena.file (.prim t.span p)) ts
      | .ident name => fileCalls stop arena.rows.length (arena.file (.ident t.span name)) ts
      | .openParen => do
        let ⟨inner, arena, ts₁, h₁⟩ ← fileExpr stop arena ts
        let ⟨ts₂, h₂⟩ ← expectSign stop .closeParen .closeParen ts₁
        let ⟨whole, arena, rest, h₃⟩ ← fileCalls stop inner arena ts₂
        return ⟨whole, arena, rest, by simp only [List.length_cons]; omega⟩
      | _ => .error (.unexpected stop .expression (t :: ts))
termination_by 5 * ts.length

/-- Reads the argument lists that follow a callee. -/
def fileCalls (stop : Span) (callee : Nat) (arena : Arena) (ts : List Token) :
    Except ParseError (Filed Nat (ts.length + 1)) :=
  match ts with
  | ⟨.openParen, _, _⟩ :: ts => do
    let ⟨(args, close), arena, ts₁, h₁⟩ ← fileArgs stop arena ts
    let whole := .call ((arena.spanAt callee).merge close) callee args
    let ⟨whole, arena, rest, h₂⟩ ← fileCalls stop arena.rows.length (arena.file whole) ts₁
    return ⟨whole, arena, rest, by simp only [List.length_cons]; omega⟩
  | ts => .ok ⟨callee, arena, ts, Nat.lt_succ_self _⟩
termination_by 5 * ts.length

/-- Reads the arguments of a call behind `(`, up to and including `)`, whose span it returns. -/
def fileArgs (stop : Span) (arena : Arena) (ts : List Token) :
    Except ParseError (Filed (List Nat × Span) ts.length) :=
  match ts with
  | ⟨.closeParen, _, close⟩ :: rest => .ok ⟨([], close), arena, rest, Nat.lt_succ_self _⟩
  | ts => fileArgList stop arena ts
termination_by 5 * ts.length + 4

/-- Reads one or more arguments separated by commas, up to and including `)`. -/
def fileArgList (stop : Span) (arena : Arena) (ts : List Token) :
    Except ParseError (Filed (List Nat × Span) ts.length) := do
  let ⟨arg, arena, ts₁, h₁⟩ ← fileExpr stop arena ts
  match ts₁, h₁ with
  | ⟨.comma, _, _⟩ :: ts₂, h₁ =>
    have : ts₂.length < ts.length := by simp only [List.length_cons] at h₁; omega
    let ⟨(args, close), arena, rest, h₂⟩ ← fileArgList stop arena ts₂
    return ⟨(arg :: args, close), arena, rest, by omega⟩
  | ⟨.closeParen, _, close⟩ :: rest, h₁ =>
    return ⟨([arg], close), arena, rest, by simp only [List.length_cons] at h₁; omega⟩
  | ts₁, _ => .error (.unexpected stop .commaOrClose ts₁)
termination_by 5 * ts.length + 3

/-- Reads definitions as long as names follow. -/
def fileDefs (stop : Span) (arena : Arena) (ts : List Token) :
    Except ParseError (Filed (List (Binder × Nat)) (ts.length + 1)) :=
  match ts with
  | ⟨.ident name, _, span⟩ :: ts => do
    let ⟨ts₁, h₁⟩ ← expectSign stop .define .defineSign ts
    let ⟨init, arena, ts₂, h₂⟩ ← fileExpr stop arena ts₁
    let ⟨ts₃, h₃⟩ ← expectSign stop .semicolon .semicolon ts₂
    let ⟨defs, arena, rest, h₄⟩ ← fileDefs stop arena ts₃
    return ⟨(⟨name, span⟩, init) :: defs, arena, rest, by simp only [List.length_cons]; omega⟩
  | ts => .ok ⟨[], arena, ts, Nat.lt_succ_self _⟩
termination_by 5 * ts.length
end

namespace Arena

/-- The number of the expression that a token list spells, and the arena of its nodes. -/
def ofTokens (ts : TokenList) : Except ParseError (Nat × Arena) := do
  let filed ← fileExpr ts.stop .empty ts.tokens
  match filed.rest with
  | [] => return (filed.value, filed.arena)
  | t :: _ => .error ⟨.trailingInput t.sign, t.span⟩

/-- The number of the expression that a source spells, the arena of its nodes, and the table of its
names, which extends `names`. -/
def ofSourceWith (names : Interner) (source : String) :
    Except SyntaxError ((Nat × Arena) × Interner) :=
  match TokenList.ofSourceWith names source with
  | .error e => .error (.lex e)
  | .ok ts =>
    match ofTokens ts with
    | .error e => .error (.parse e)
    | .ok filed => .ok (filed, ts.names)

end Arena

/-! ## Nodes that are filed -/

namespace Arena

variable {arena : Arena} {e : Expr}

/-- The arena has the root node of the tree under the given number. -/
structure Keeps (arena : Arena) (e : Expr) (id : Nat) : Prop where
  id_eq : id = e.nodeId
  id_lt : id < arena.rows.length
  span_eq : arena.spanAt id = e.span

theorem Keeps.file {id : Nat} (h : arena.Keeps e id) (node : Node) :
    (arena.file node).Keeps e id := by
  obtain ⟨row, hrows, -⟩ := rows_file arena node
  refine ⟨h.id_eq, ?_, ?_⟩
  · rw [length_rows_file]
    exact Nat.lt_succ_of_lt h.id_lt
  · rw [spanAt, hrows, List.getElem?_append_left h.id_lt]
    exact h.span_eq

theorem Keeps.fileAll {id : Nat} (h : arena.Keeps e id) (nodes : List Node) :
    (arena.fileAll nodes).Keeps e id := by
  induction nodes generalizing arena with
  | nil => exact h
  | cons node nodes ih => exact ih (h.file node)

theorem keeps_file (h : e.nodeId = arena.rows.length) :
    (arena.file e.node).Keeps e arena.rows.length := by
  refine ⟨h.symm, ?_, ?_⟩
  · rw [length_rows_file]
    exact Nat.lt_succ_self _
  · cases e <;> simp [spanAt, Arena.file, addRow, Expr.node, Row.span, Expr.span, Expr.place]

/-- The second arena is the first one followed by all nodes of the tree but its root, which is
next. -/
structure Readies (arena : Arena) (e : Expr) (arena' : Arena) : Prop where
  id_eq : e.nodeId = arena'.rows.length
  arena_eq : arena' = arena.fileAll (e.parts.flatMap Expr.nodes)

namespace Readies

variable {arena' : Arena} (h : arena.Readies e arena')
include h

theorem fileAll_eq : arena.fileAll e.nodes = arena'.file e.node := by
  rw [Expr.nodes_eq, fileAll_append, ← h.arena_eq]
  rfl

theorem length_eq : (arena.fileAll e.nodes).rows.length = arena'.rows.length + 1 := by
  rw [h.fileAll_eq, length_rows_file]

theorem keeps : (arena.fileAll e.nodes).Keeps e e.nodeId := by
  rw [h.fileAll_eq, h.id_eq]
  exact keeps_file h.id_eq

end Readies

end Arena

/-! ## Reading a tree and filing its nodes -/

/-- Reading into the arena comes to the same as reading a tree and filing its nodes behind the
arena.  The values correspond, given the arena behind them. -/
structure Filed.Matches {α β : Type} (arena : Arena) (R : Arena → α → β → Prop)
    (nodes : α → List Node) {n m : Nat} (p : Parsed α n) (q : Filed β m) : Prop where
  value : R q.arena p.value q.value
  arena_eq : q.arena = arena.fileAll (nodes p.value)
  next_eq : p.next = q.arena.rows.length
  rest_eq : p.rest = q.rest

/-- Both ways fail alike, or come to the same. -/
abbrev FilesAs {α β : Type} (arena : Arena) (R : Arena → α → β → Prop) (nodes : α → List Node)
    {n m : Nat} : Except ParseError (Parsed α n) → Except ParseError (Filed β m) → Prop :=
  ExceptRel Eq (Filed.Matches arena R nodes)

/-- Arguments under their numbers, and the closing parenthesis. -/
def ArgsFiled (_ : Arena) (args : List Expr × Span) (ids : List Nat × Span) : Prop :=
  ids = (args.1.map Expr.nodeId, args.2)

/-- Definitions with the numbers of their right-hand sides. -/
def DefsFiled (_ : Arena) (defs : List (Binder × Expr)) (ids : List (Binder × Nat)) : Prop :=
  ids = defs.map fun d => (d.1, d.2.nodeId)

section

variable {α β γ δ : Type} {n m : Nat} {arena : Arena} {R : Arena → α → β → Prop}
  {nodes : α → List Node} {S : γ → δ → Prop}

theorem FilesAs.bind {x : Except ParseError (Parsed α n)} {y : Except ParseError (Filed β m)}
    {f : Parsed α n → Except ParseError γ} {g : Filed β m → Except ParseError δ}
    (h : FilesAs arena R nodes x y)
    (hnext : ∀ a b arena' rest hfewer hfewer', arena' = arena.fileAll (nodes a) → R arena' a b →
      ExceptRel Eq S (f ⟨a, arena'.rows.length, rest, hfewer⟩) (g ⟨b, arena', rest, hfewer'⟩)) :
    ExceptRel Eq S (x >>= f) (y >>= g) := by
  refine ExceptRel.bind h ?_
  rintro ⟨a, next, rest, hfewer⟩ ⟨b, arena', rest', hfewer'⟩ ⟨hvalue, harena, hnumber, hrest⟩
  obtain rfl : next = arena'.rows.length := hnumber
  obtain rfl : rest = rest' := hrest
  exact hnext a b arena' rest hfewer hfewer' harena hvalue

theorem ExceptRel.bindSame {x : Except ParseError α} {f : α → Except ParseError γ}
    {g : α → Except ParseError δ} (hnext : ∀ a, ExceptRel Eq S (f a) (g a)) :
    ExceptRel Eq S (x >>= f) (x >>= g) := by
  cases x with
  | error e => exact .error rfl
  | ok a => exact hnext a

/-- The last node of a tree is filed behind its parts. -/
theorem Arena.Readies.matches {e : Expr} {arena' : Arena} (h : arena.Readies e arena')
    {rest : List Token} (hfewer : rest.length < n) (hfewer' : rest.length < m) :
    Filed.Matches arena Arena.Keeps Expr.nodes ⟨e, arena'.rows.length + 1, rest, hfewer⟩
      (Filed.node arena' e.node rest hfewer') where
  value := Arena.keeps_file h.id_eq
  arena_eq := h.fileAll_eq.symm
  next_eq := (Arena.length_rows_file _ _).symm
  rest_eq := rfl

end

/-! ## The readers -/

section

variable {stop : Span} {arena : Arena} {ts : List Token}

theorem fileExpr_of_other (hif : ¬StartsWith (.keyword .ifWord) ts)
    (hlet : ¬StartsWith (.keyword .letWord) ts) (hmap : ¬StartsWith (.keyword .mapWord) ts) :
    fileExpr stop arena ts = fileBinary stop 0 arena ts := by
  unfold fileExpr
  split
  · exact absurd ⟨_, rfl, rfl⟩ hif
  · exact absurd ⟨_, rfl, rfl⟩ hlet
  · exact absurd ⟨_, rfl, rfl⟩ hmap
  · rfl

theorem fileOperators_of_other {min left : Nat} (h : ∀ op, ¬StartsWith (.operator op) ts) :
    fileOperators stop min left arena ts = .ok ⟨left, arena, ts, Nat.lt_succ_self _⟩ := by
  unfold fileOperators
  split
  · exact absurd ⟨_, rfl, rfl⟩ (h _)
  · rfl

theorem fileCalls_of_other {callee : Nat} (h : ¬StartsWith .openParen ts) :
    fileCalls stop callee arena ts = .ok ⟨callee, arena, ts, Nat.lt_succ_self _⟩ := by
  unfold fileCalls
  split
  · exact absurd ⟨_, rfl, rfl⟩ h
  · rfl

theorem fileArgs_of_other (h : ¬StartsWith .closeParen ts) :
    fileArgs stop arena ts = fileArgList stop arena ts := by
  unfold fileArgs
  split
  · exact absurd ⟨_, rfl, rfl⟩ h
  · rfl

theorem fileDefs_of_other (h : ∀ name, ¬StartsWith (.ident name) ts) :
    fileDefs stop arena ts = .ok ⟨[], arena, ts, Nat.lt_succ_self _⟩ := by
  unfold fileDefs
  split
  · exact absurd ⟨_, rfl, rfl⟩ (h _)
  · rfl

/-- An operand or a callee that is not followed by more of it is the whole. -/
theorem Filed.Matches.self {e : Expr} {n m : Nat}
    (h : (arena.fileAll e.nodes).Keeps e e.nodeId) (hfewer : ts.length < n)
    (hfewer' : ts.length < m) :
    Filed.Matches arena Arena.Keeps Expr.nodes
      ⟨e, (arena.fileAll e.nodes).rows.length, ts, hfewer⟩
      ⟨e.nodeId, arena.fileAll e.nodes, ts, hfewer'⟩ :=
  ⟨h, rfl, rfl, rfl⟩

end

section

variable (stop : Span)

-- The induction follows the readers.  An operand or a callee is read before the node that it belongs
-- to, and more is filed in between; `Keeps` says that it can still be looked up then.
mutual
theorem fileExpr_matches (arena : Arena) (ts : List Token) :
    FilesAs arena Arena.Keeps Expr.nodes (parseExpr stop arena.rows.length ts)
      (fileExpr stop arena ts) := by
  by_cases hif : StartsWith (.keyword .ifWord) ts
  · obtain ⟨text, span, ts, rfl⟩ := hif.exists_eq
    rw [parseExpr, fileExpr]
    refine (fileExpr_matches arena ts).bind fun test _ arena₁ ts₁ h₁ _ harena₁ htest => ?_
    refine .bindSame fun ⟨ts₂, h₂⟩ => ?_
    refine (fileExpr_matches arena₁ ts₂).bind fun yes _ arena₂ ts₃ h₃ _ harena₂ hyes => ?_
    refine .bindSame fun ⟨ts₄, h₄⟩ => ?_
    refine (fileExpr_matches arena₂ ts₄).bind fun no _ arena₃ rest h₅ _ harena₃ hno => ?_
    obtain rfl := htest.id_eq
    obtain rfl := hyes.id_eq
    obtain rfl := hno.id_eq
    dsimp only
    rw [hno.span_eq]
    refine .ok (Arena.Readies.matches (e := .cond ⟨_, _⟩ test yes no) ⟨rfl, ?_⟩ _ _)
    rw [harena₃, harena₂, harena₁, ← Arena.fileAll_append, ← Arena.fileAll_append]
    simp [Expr.parts]
  by_cases hlet : StartsWith (.keyword .letWord) ts
  · obtain ⟨text, span, ts, rfl⟩ := hlet.exists_eq
    rw [parseExpr, fileExpr]
    refine (fileDefs_matches arena ts).bind fun defs _ arena₁ ts₁ h₁ _ harena₁ hdefs => ?_
    obtain rfl : _ = _ := hdefs
    -- There are no definitions on either side, or there are some on both.
    dsimp only
    rw [List.isEmpty_map]
    split
    · exact .error rfl
    · refine .bindSame fun ⟨ts₂, h₂⟩ => ?_
      refine (fileExpr_matches arena₁ ts₂).bind fun body _ arena₂ rest h₃ _ harena₂ hbody => ?_
      obtain rfl := hbody.id_eq
      dsimp only
      rw [hbody.span_eq]
      refine .ok (Arena.Readies.matches (e := .letIn ⟨_, _⟩ defs body) ⟨rfl, ?_⟩ _ _)
      rw [harena₂, harena₁, ← Arena.fileAll_append]
      simp [Expr.parts]
  by_cases hmap : StartsWith (.keyword .mapWord) ts
  · obtain ⟨text, span, ts, rfl⟩ := hmap.exists_eq
    rw [parseExpr, fileExpr]
    refine .bindSame fun ⟨params, ts₁, h₁⟩ => ?_
    refine (fileExpr_matches arena ts₁).bind fun body _ arena₁ rest h₂ _ harena₁ hbody => ?_
    obtain rfl := hbody.id_eq
    dsimp only
    rw [hbody.span_eq]
    refine .ok (Arena.Readies.matches (e := .map ⟨_, _⟩ params body) ⟨rfl, ?_⟩ _ _)
    rw [harena₁]
    simp [Expr.parts]
  rw [parseExpr_of_other hif hlet hmap, fileExpr_of_other hif hlet hmap]
  exact fileBinary_matches 0 arena ts
termination_by 5 * ts.length + 2
decreasing_by all_goals first | omega | (subst_vars; simp only [List.length_cons]; omega)

theorem fileBinary_matches (min : Nat) (arena : Arena) (ts : List Token) :
    FilesAs arena Arena.Keeps Expr.nodes (parseBinary stop min arena.rows.length ts)
      (fileBinary stop min arena ts) := by
  rw [parseBinary, fileBinary]
  refine (fileTerm_matches arena ts).bind fun left _ arena₁ ts₁ h₁ _ harena₁ hleft => ?_
  obtain rfl := hleft.id_eq
  subst harena₁
  refine (fileOperators_matches min hleft ts₁).bind
    fun whole _ arena₂ rest h₂ _ harena₂ hwhole => ?_
  exact .ok ⟨hwhole, harena₂, rfl, rfl⟩
termination_by 5 * ts.length + 1

theorem fileOperators_matches (min : Nat) {arena : Arena} {left : Expr}
    (hleft : (arena.fileAll left.nodes).Keeps left left.nodeId) (ts : List Token) :
    FilesAs arena Arena.Keeps Expr.nodes
      (parseOperators stop min left (arena.fileAll left.nodes).rows.length ts)
      (fileOperators stop min left.nodeId (arena.fileAll left.nodes) ts) := by
  by_cases hhead : ∃ op, StartsWith (.operator op) ts
  · obtain ⟨op, hop⟩ := hhead
    obtain ⟨text, span, ts, rfl⟩ := hop.exists_eq
    rw [parseOperators, fileOperators]
    split
    · exact .ok (.self hleft _ _)
    · have hmore : ∀ {right : Expr} {arena₁ : Arena} {us : List Token}, us.length < ts.length →
          arena₁ = (arena.fileAll left.nodes).fileAll right.nodes →
          arena₁.Keeps right right.nodeId →
          FilesAs arena Arena.Keeps Expr.nodes
            (parseOperators stop min
              (.binary ⟨arena₁.rows.length, left.span.merge right.span⟩ op left right)
              (arena₁.rows.length + 1) us)
            (fileOperators stop min arena₁.rows.length
              (arena₁.file (.binary ((arena₁.spanAt left.nodeId).merge
                (arena₁.spanAt right.nodeId)) op left.nodeId right.nodeId)) us) := by
        intro right arena₁ us hfewer harena₁ hright
        -- The right operand is filed behind the left one and leaves it where it is.
        have hkept : arena₁.Keeps left left.nodeId := harena₁ ▸ hleft.fileAll right.nodes
        have hready : arena.Readies
            (.binary ⟨arena₁.rows.length, left.span.merge right.span⟩ op left right) arena₁ := by
          refine ⟨rfl, ?_⟩
          rw [harena₁, ← Arena.fileAll_append]
          simp [Expr.parts]
        have hwhole := fileOperators_matches min hready.keeps us
        rw [hready.length_eq, hready.fileAll_eq] at hwhole
        rw [hkept.span_eq, hright.span_eq]
        exact hwhole
      split
      · refine (fileExpr_matches _ ts).bind fun right _ arena₁ ts₁ h₁ _ harena₁ hright => ?_
        obtain rfl := hright.id_eq
        exact (hmore h₁ harena₁ hright).bind
          fun whole _ arena₂ rest h₂ _ harena₂ hwhole => .ok ⟨hwhole, harena₂, rfl, rfl⟩
      · refine (fileBinary_matches _ _ ts).bind fun right _ arena₁ ts₁ h₁ _ harena₁ hright => ?_
        obtain rfl := hright.id_eq
        exact (hmore h₁ harena₁ hright).bind
          fun whole _ arena₂ rest h₂ _ harena₂ hwhole => .ok ⟨hwhole, harena₂, rfl, rfl⟩
  · rw [parseOperators_of_other fun op hop => hhead ⟨op, hop⟩,
      fileOperators_of_other fun op hop => hhead ⟨op, hop⟩]
    exact .ok (.self hleft _ _)
termination_by 5 * ts.length
decreasing_by all_goals (subst_vars; simp only [List.length_cons]; omega)

theorem fileTerm_matches (arena : Arena) (ts : List Token) :
    FilesAs arena Arena.Keeps Expr.nodes (parseTerm stop arena.rows.length ts)
      (fileTerm stop arena ts) := by
  cases ts with
  | nil =>
      rw [parseTerm, fileTerm]
      exact .error rfl
  | cons t ts =>
      rw [parseTerm, fileTerm]
      cases hunary : t.sign.unaryOp? with
      | some op =>
          refine (fileTerm_matches arena ts).bind
            fun operand _ arena₁ rest h₁ _ harena₁ hoperand => ?_
          obtain rfl := hoperand.id_eq
          dsimp only
          rw [hoperand.span_eq]
          refine .ok (Arena.Readies.matches (e := .unary ⟨_, _⟩ op operand) ⟨rfl, ?_⟩ _ _)
          rw [harena₁]
          simp [Expr.parts]
      | none =>
          obtain ⟨sign, text, span⟩ := t
          cases sign with
          | int n => exact .ok (Arena.Readies.matches (e := .int ⟨_, span⟩ n) ⟨rfl, rfl⟩ _ _)
          | bool b => exact .ok (Arena.Readies.matches (e := .bool ⟨_, span⟩ b) ⟨rfl, rfl⟩ _ _)
          | null => exact .ok (Arena.Readies.matches (e := .null ⟨_, span⟩) ⟨rfl, rfl⟩ _ _)
          -- A callee is filed first, and the calls behind it are filed onto its row.
          | prim p =>
              have hready : arena.Readies (.prim ⟨arena.rows.length, span⟩ p) arena := ⟨rfl, rfl⟩
              have hcalls := fileCalls_matches hready.keeps ts
              rw [hready.length_eq, hready.fileAll_eq] at hcalls
              exact hcalls
          | ident name =>
              have hready : arena.Readies (.ident ⟨arena.rows.length, span⟩ name) arena :=
                ⟨rfl, rfl⟩
              have hcalls := fileCalls_matches hready.keeps ts
              rw [hready.length_eq, hready.fileAll_eq] at hcalls
              exact hcalls
          | openParen =>
              refine (fileExpr_matches arena ts).bind
                fun inner _ arena₁ ts₁ h₁ _ harena₁ hinner => ?_
              refine .bindSame fun ⟨ts₂, h₂⟩ => ?_
              obtain rfl := hinner.id_eq
              subst harena₁
              refine (fileCalls_matches hinner ts₂).bind
                fun whole _ arena₂ rest h₃ _ harena₂ hwhole => ?_
              exact .ok ⟨hwhole, harena₂, rfl, rfl⟩
          | _ => exact .error rfl
termination_by 5 * ts.length
decreasing_by all_goals (subst_vars; simp only [List.length_cons]; omega)

theorem fileCalls_matches {arena : Arena} {callee : Expr}
    (hcallee : (arena.fileAll callee.nodes).Keeps callee callee.nodeId) (ts : List Token) :
    FilesAs arena Arena.Keeps Expr.nodes
      (parseCalls stop callee (arena.fileAll callee.nodes).rows.length ts)
      (fileCalls stop callee.nodeId (arena.fileAll callee.nodes) ts) := by
  by_cases hhead : StartsWith .openParen ts
  · obtain ⟨text, span, ts, rfl⟩ := hhead.exists_eq
    rw [parseCalls, fileCalls]
    refine (fileArgs_matches (arena.fileAll callee.nodes) ts).bind
      fun args _ arena₁ ts₁ h₁ _ harena₁ hargs => ?_
    obtain rfl : _ = _ := hargs
    -- The arguments are filed between the callee and the call.
    have hkept : arena₁.Keeps callee callee.nodeId := harena₁ ▸ hcallee.fileAll _
    have hready : arena.Readies
        (.call ⟨arena₁.rows.length, callee.span.merge args.2⟩ callee args.1) arena₁ := by
      refine ⟨rfl, ?_⟩
      rw [harena₁, ← Arena.fileAll_append]
      simp [Expr.parts]
    have hwhole := fileCalls_matches hready.keeps ts₁
    rw [hready.length_eq, hready.fileAll_eq] at hwhole
    dsimp only
    rw [hkept.span_eq]
    exact hwhole.bind fun whole _ arena₂ rest h₂ _ harena₂ hwhole => .ok ⟨hwhole, harena₂, rfl, rfl⟩
  · rw [parseCalls_of_other hhead, fileCalls_of_other hhead]
    exact .ok (.self hcallee _ _)
termination_by 5 * ts.length
decreasing_by all_goals (subst_vars; simp only [List.length_cons]; omega)

theorem fileArgs_matches (arena : Arena) (ts : List Token) :
    FilesAs arena ArgsFiled (fun args => args.1.flatMap Expr.nodes)
      (parseArgs stop arena.rows.length ts) (fileArgs stop arena ts) := by
  by_cases hhead : StartsWith .closeParen ts
  · obtain ⟨text, span, ts, rfl⟩ := hhead.exists_eq
    rw [parseArgs, fileArgs]
    exact .ok ⟨rfl, rfl, rfl, rfl⟩
  · rw [parseArgs_of_other hhead, fileArgs_of_other hhead]
    exact fileArgList_matches arena ts
termination_by 5 * ts.length + 4

theorem fileArgList_matches (arena : Arena) (ts : List Token) :
    FilesAs arena ArgsFiled (fun args => args.1.flatMap Expr.nodes)
      (parseArgList stop arena.rows.length ts) (fileArgList stop arena ts) := by
  rw [parseArgList, fileArgList]
  refine (fileExpr_matches arena ts).bind fun arg _ arena₁ ts₁ h₁ _ harena₁ harg => ?_
  obtain rfl := harg.id_eq
  cases ts₁ with
  | nil => exact .error rfl
  | cons t ts₂ =>
      obtain ⟨sign, text, span⟩ := t
      cases sign with
      | comma =>
          have hfewer : ts₂.length < ts.length := Nat.lt_of_succ_lt h₁
          refine (fileArgList_matches arena₁ ts₂).bind
            fun args _ arena₂ rest h₂ _ harena₂ hargs => ?_
          obtain rfl : _ = _ := hargs
          refine .ok ⟨rfl, ?_, rfl, rfl⟩
          rw [harena₂, harena₁, ← Arena.fileAll_append]
          rfl
      | closeParen =>
          refine .ok ⟨rfl, ?_, rfl, rfl⟩
          rw [harena₁]
          simp
      | _ => exact .error rfl
termination_by 5 * ts.length + 3

theorem fileDefs_matches (arena : Arena) (ts : List Token) :
    FilesAs arena DefsFiled (fun defs => (defs.map Prod.snd).flatMap Expr.nodes)
      (parseDefs stop arena.rows.length ts) (fileDefs stop arena ts) := by
  by_cases hhead : ∃ name, StartsWith (.ident name) ts
  · obtain ⟨name, hname⟩ := hhead
    obtain ⟨text, span, ts, rfl⟩ := hname.exists_eq
    rw [parseDefs, fileDefs]
    refine .bindSame fun ⟨ts₁, h₁⟩ => ?_
    refine (fileExpr_matches arena ts₁).bind fun init _ arena₁ ts₂ h₂ _ harena₁ hinit => ?_
    refine .bindSame fun ⟨ts₃, h₃⟩ => ?_
    refine (fileDefs_matches arena₁ ts₃).bind fun defs _ arena₂ rest h₄ _ harena₂ hdefs => ?_
    obtain rfl := hinit.id_eq
    obtain rfl : _ = _ := hdefs
    refine .ok ⟨rfl, ?_, rfl, rfl⟩
    rw [harena₂, harena₁, ← Arena.fileAll_append]
    rfl
  · rw [parseDefs_of_other fun name hname => hhead ⟨name, hname⟩,
      fileDefs_of_other fun name hname => hhead ⟨name, hname⟩]
    exact .ok ⟨rfl, rfl, rfl, rfl⟩
termination_by 5 * ts.length
decreasing_by all_goals (subst_vars; simp only [List.length_cons]; omega)
end

end

/-! ## Whole sources -/

namespace Arena

/-- The arena of a tree. -/
def ofExpr (e : Expr) : Arena := empty.fileAll e.nodes

theorem ofTokens_eq (ts : TokenList) :
    ofTokens ts = (Expr.ofTokens ts).map fun e => (e.nodeId, ofExpr e) := by
  have h := fileExpr_matches ts.stop empty ts.tokens
  unfold ofTokens Expr.ofTokens
  change FilesAs empty Keeps Expr.nodes (parseExpr ts.stop 0 ts.tokens) _ at h
  generalize parseExpr ts.stop 0 ts.tokens = parsed at h ⊢
  generalize fileExpr ts.stop empty ts.tokens = filed at h ⊢
  cases h with
  | error h =>
      cases h
      rfl
  | @ok p q h =>
      obtain ⟨e, next, rest, hfewer⟩ := p
      obtain ⟨id, arena, rest', hfewer'⟩ := q
      obtain ⟨hvalue, rfl, -, rfl⟩ := h
      obtain rfl := hvalue.id_eq
      cases rest <;> rfl

/-- Reading a source into an arena is reading its tree and filing the nodes in post-order. -/
theorem ofSourceWith_eq (names : Interner) (source : String) :
    ofSourceWith names source =
      (Expr.ofSourceWith names source).map fun r => ((r.1.nodeId, ofExpr r.1), r.2) := by
  unfold ofSourceWith Expr.ofSourceWith
  cases TokenList.ofSourceWith names source with
  | error e => rfl
  | ok ts =>
      dsimp only
      rw [ofTokens_eq]
      cases Expr.ofTokens ts <;> rfl

end Arena

end PolicyEval
