import PolicyEval.Proofs.Render.Inquiry

/-!
# Sights — what is seen of a value within bounds

A list may be infinite, and so may the nesting of lists, but what is seen of a value within given
bounds is a finite tree.  Looking at a value asks for the parts of its cells from left to right,
each head before its own tail, and what is inside a head before the tail.  A rendering looks at the
value and writes down what it sees.

* `Leaf`, `Sight` — values without parts, and trees of what is seen.
* `Sight.text` — what is seen, written down.
* `Value.Reveals` — what is seen of a value, and the answers that show it.
* `Value.look` — looking at a value, as an inquiry.
* `renderIn_eq_run` — a rendering is the text of what is seen.
-/

namespace PolicyEval

/-! ## Leaves and sights -/

/-- A value without parts; of a closure only its function is seen. -/
inductive Leaf where
  | int (n : Int)
  | bool (b : Bool)
  | prim (p : Prim)
  | closure (lambda : Lambda)

/-- The text of a leaf. -/
def Leaf.text : Leaf → String
  | int n => toString n
  | bool b => if b then "true" else "false"
  | prim p => p.name
  | closure lambda => "(closure: " ++ lambda.expr.print ++ ")"

/-- The leaf that a value is, unless it is a list. -/
def Value.leaf? : Value → Option Leaf
  | .int n => some (.int n)
  | .bool b => some (.bool b)
  | .prim p => some (.prim p)
  | .closure _ lambda _ => some (.closure lambda)
  | .nil | .cons .. => none

/-- What is seen of a value. -/
inductive Sight where
  | leaf (l : Leaf)
  /-- A list that is nested too deep. -/
  | elided
  /-- A list with its first elements; there may be more of them. -/
  | list (items : List Sight) (more : Bool)

/-- The end of a list. -/
def closing (more : Bool) : String := if more then " ...)" else ")"

mutual
/-- What is seen, written down: elements stand in parentheses with blanks between them, and `...`
stands for what is not seen. -/
def Sight.text : Sight → String
  | leaf l => l.text
  | elided => "..."
  | list items more => "(" ++ " ".intercalate (Sight.texts items) ++ closing more

/-- The texts of elements. -/
def Sight.texts : List Sight → List String
  | [] => []
  | item :: items => item.text :: Sight.texts items
end

theorem Sight.texts_eq_map (items : List Sight) : Sight.texts items = items.map Sight.text := by
  induction items with
  | nil => rfl
  | cons item items ih => rw [texts, List.map_cons, ih]

/-! ## Revealing -/

mutual
/-- With `room` for nested lists and at most `length` elements of each list, these answers reveal
this much of the value. -/
inductive Value.Reveals (length : Nat) : Nat → Value → Answers → Sight → Prop
  | leaf {room : Nat} {v : Value} {l : Leaf} (h : v.leaf? = some l) :
      Value.Reveals length room v [] (.leaf l)
  | elided {v : Value} (h : v.isList = true) : Value.Reveals length 0 v [] .elided
  | list {room : Nat} {v : Value} {asked : Answers} {items : List Sight} {more : Bool}
      (h : Value.RevealsItems length room length v asked items more) :
      Value.Reveals length (room + 1) v asked (.list items more)

/-- The answers reveal this much of the elements of a list, of which at most `left` are looked
at. -/
inductive Value.RevealsItems (length : Nat) :
    Nat → Nat → Value → Answers → List Sight → Bool → Prop
  | nil {room left : Nat} : Value.RevealsItems length room left .nil [] [] false
  | cut {room tag : Nat} {x y : Thunk} :
      Value.RevealsItems length room 0 (.cons tag x y) [] [] true
  | cell {room left tag : Nat} {x y : Thunk} {head tail : Value} {inside behind : Answers}
      {item : Sight} {items : List Sight} {more : Bool}
      (hhead : Value.Reveals length room head inside item)
      (htail : Value.RevealsItems length room left tail behind items more) :
      Value.RevealsItems length room (left + 1) (.cons tag x y)
        ((.head x, head) :: (inside ++ (.tail y, tail) :: behind)) (item :: items) more
end

/-! ## Looking -/

/-- Looks at the elements of a list, at most `left` of them. -/
def Value.lookAlong (item : Value → Inquiry Sight) : Nat → Value → Inquiry (List Sight × Bool)
  | 0, .cons .. => .done ([], true)
  | left + 1, .cons _ x y =>
    .ask (.head x) fun head => (item head).bind fun first =>
      .ask (.tail y) fun tail => (Value.lookAlong item left tail).bind fun rest =>
        .done (first :: rest.1, rest.2)
  | _, _ => .done ([], false)

/-- Looks at a value. -/
def Value.look (length : Nat) : Nat → Value → Inquiry Sight
  | 0, v =>
    match v.leaf? with
    | some l => .done (.leaf l)
    | none => .done .elided
  | room + 1, v =>
    match v.leaf? with
    | some l => .done (.leaf l)
    | none =>
      (Value.lookAlong (Value.look length room) length v).bind fun seen =>
        .done (.list seen.1 seen.2)

theorem Value.look_of_leaf {v : Value} {l : Leaf} (h : v.leaf? = some l) (length room : Nat) :
    v.look length room = .done (.leaf l) := by
  cases room <;> simp only [look, h]

theorem Value.look_zero {v : Value} (h : v.leaf? = none) (length : Nat) :
    v.look length 0 = .done .elided := by
  simp only [look, h]

theorem Value.look_succ {v : Value} (h : v.leaf? = none) (length room : Nat) :
    v.look length (room + 1) =
      (v.lookAlong (Value.look length room) length).bind fun seen =>
        .done (.list seen.1 seen.2) := by
  simp only [look, h]

theorem Value.isList_of_leaf? {v : Value} (h : v.leaf? = none) : v.isList = true := by
  cases v with
  | nil | cons => rfl
  | int | bool | prim | closure => cases h

theorem Value.leaf?_of_isList {v : Value} (h : v.isList = true) : v.leaf? = none := by
  cases v with
  | nil | cons => rfl
  | int | bool | prim | closure => cases h

theorem Value.RevealsItems.isList {length room left : Nat} {v : Value} {asked : Answers}
    {items : List Sight} {more : Bool} (h : v.RevealsItems length room left asked items more) :
    v.isList = true := by
  cases h <;> rfl

theorem Value.reveals_leaf_iff {v : Value} {l : Leaf} (h : v.leaf? = some l) {length room : Nat}
    {asked : Answers} {sight : Sight} :
    v.Reveals length room asked sight ↔ asked = [] ∧ sight = .leaf l := by
  constructor
  · rintro (⟨hleaf⟩ | ⟨hlist⟩ | ⟨hitems⟩)
    · cases h.symm.trans hleaf
      exact ⟨rfl, rfl⟩
    · cases h.symm.trans (Value.leaf?_of_isList hlist)
    · cases h.symm.trans (Value.leaf?_of_isList hitems.isList)
  · rintro ⟨rfl, rfl⟩
    exact .leaf h

/-- Looking at elements reveals them, if looking at one of them does. -/
theorem Value.trace_lookAlong_iff {length room : Nat} {item : Value → Inquiry Sight}
    (hitem : ∀ {v asked sight}, (item v).Trace asked sight ↔ v.Reveals length room asked sight)
    {left : Nat} {v : Value} (hlist : v.isList = true) {asked : Answers} {items : List Sight}
    {more : Bool} :
    (v.lookAlong item left).Trace asked (items, more) ↔
      v.RevealsItems length room left asked items more := by
  -- The induction is on how many elements may still be looked at.
  induction left generalizing v asked items with
  | zero =>
      cases v with
      | int | bool | prim | closure => cases hlist
      | nil =>
          simp only [lookAlong, Inquiry.trace_done_iff]
          constructor
          · rintro ⟨rfl, ⟨⟩⟩
            exact .nil
          · rintro ⟨⟩
            exact ⟨rfl, rfl⟩
      | cons tag x y =>
          simp only [lookAlong, Inquiry.trace_done_iff]
          constructor
          · rintro ⟨rfl, ⟨⟩⟩
            exact .cut
          · rintro ⟨⟩
            exact ⟨rfl, rfl⟩
  | succ left ih =>
      cases v with
      | int | bool | prim | closure => cases hlist
      | nil =>
          simp only [lookAlong, Inquiry.trace_done_iff]
          constructor
          · rintro ⟨rfl, ⟨⟩⟩
            exact .nil
          · rintro ⟨⟩
            exact ⟨rfl, rfl⟩
      | cons tag x y =>
          simp only [lookAlong, Inquiry.trace_ask_iff, Inquiry.trace_bind_iff,
            Inquiry.trace_done_iff, hitem]
          constructor
          · rintro ⟨head, _, rfl, -, first, inside, _, rfl, hhead, tail, _, rfl, htail,
              ⟨rest, more⟩, behind, _, rfl, hrest, rfl, ⟨⟩⟩
            rw [List.append_nil]
            exact .cell hhead ((ih htail).1 hrest)
          · rintro (_ | _ | ⟨hhead, htail⟩)
            refine ⟨_, _, rfl, trivial, _, _, _, rfl, hhead, _, _, rfl, htail.isList, (_, _), _, [],
              (List.append_nil _).symm, (ih htail.isList).2 htail, rfl, rfl⟩

/-- Looking at a value reveals what is seen of it. -/
theorem Value.trace_look_iff {length room : Nat} {v : Value} {asked : Answers} {sight : Sight} :
    (v.look length room).Trace asked sight ↔ v.Reveals length room asked sight := by
  -- The induction is on how many levels of lists may still be looked into.
  induction room generalizing v asked sight with
  | zero =>
      cases hleaf : v.leaf? with
      | some l =>
          rw [look_of_leaf hleaf, Inquiry.trace_done_iff, reveals_leaf_iff hleaf]
      | none =>
          rw [look_zero hleaf, Inquiry.trace_done_iff]
          constructor
          · rintro ⟨rfl, rfl⟩
            exact .elided (Value.isList_of_leaf? hleaf)
          · rintro (⟨hleaf'⟩ | _)
            · cases hleaf.symm.trans hleaf'
            · exact ⟨rfl, rfl⟩
  | succ room ih =>
      cases hleaf : v.leaf? with
      | some l =>
          rw [look_of_leaf hleaf, Inquiry.trace_done_iff, reveals_leaf_iff hleaf]
      | none =>
          have hlist := Value.isList_of_leaf? hleaf
          simp only [look_succ hleaf, Inquiry.trace_bind_iff, Inquiry.trace_done_iff]
          constructor
          · rintro ⟨⟨items, more⟩, first, _, rfl, hitems, rfl, rfl⟩
            rw [List.append_nil]
            exact .list ((Value.trace_lookAlong_iff ih hlist).1 hitems)
          · rintro (⟨hleaf'⟩ | _ | ⟨hitems⟩)
            · cases hleaf.symm.trans hleaf'
            · exact ⟨(_, _), _, [], (List.append_nil _).symm,
                (Value.trace_lookAlong_iff ih hlist).2 hitems, rfl, rfl⟩

/-! ## Rendering -/

/-- Texts behind one another, each but the first with a blank before it. -/
def spaced (isFirst : Bool) : List String → String
  | [] => ""
  | text :: texts => (if isFirst then text else " " ++ text) ++ spaced false texts

theorem spaced_true (texts : List String) : spaced true texts = " ".intercalate texts := by
  have hbehind : ∀ (text : String) (texts : List String),
      text ++ spaced false texts = " ".intercalate (text :: texts) := by
    intro text texts
    induction texts generalizing text with
    | nil => simp [spaced]
    | cons next texts ih =>
        rw [String.intercalate_cons_cons, ← ih, spaced]
        simp [String.append_assoc]
  cases texts with
  | nil => simp [spaced]
  | cons text texts => simpa [spaced] using hbehind text texts

theorem renderSpine_eq_run (ev : Evaluator) (item : Value → Inquiry Sight) (isFirst : Bool)
    (out : String) (left : Nat) (v : Value) :
    renderSpine ev (fun v => Sight.text <$> (item v).run ev) isFirst out left v =
      (fun seen => out ++ spaced isFirst (Sight.texts seen.1) ++ closing seen.2) <$>
        (v.lookAlong item left).run ev := by
  induction left generalizing isFirst out v with
  | zero =>
      cases v <;>
        simp [renderSpine, Value.lookAlong, Inquiry.run, Sight.texts, spaced, closing]
  | succ left ih =>
      cases v with
      | int | bool | prim | closure | nil =>
          simp [renderSpine, Value.lookAlong, Inquiry.run, Sight.texts, spaced, closing]
      | cons tag x y =>
          have hout : ∀ (first : Sight) (seen : List Sight × Bool),
              (if isFirst then out else out ++ " ") ++ first.text ++
                  spaced false (Sight.texts seen.1) ++ closing seen.2 =
                out ++ spaced isFirst (Sight.texts (first :: seen.1)) ++ closing seen.2 := by
            intro first seen
            cases isFirst <;> simp [Sight.texts, spaced, String.append_assoc]
          simp only [renderSpine, Value.lookAlong, Inquiry.run, Inquiry.run_bind, CellPart.force,
            ih, map_bind, bind_map_left, hout, bind_pure_comp, Functor.map_map]

theorem renderIn_of_leaf {v : Value} {l : Leaf} (h : v.leaf? = some l) (ev : Evaluator)
    (length room : Nat) : renderIn ev length room v = pure l.text := by
  cases v with
  | nil | cons => cases h
  | bool b =>
      cases h
      cases b <;> rw [renderIn] <;> rfl
  | int | prim | closure =>
      cases h
      rw [renderIn]
      rfl

theorem renderIn_zero {v : Value} (h : v.isList = true) (ev : Evaluator) (length : Nat) :
    renderIn ev length 0 v = pure "..." := by
  cases v with
  | nil | cons => simp only [renderIn]
  | int | bool | prim | closure => cases h

theorem renderIn_succ {v : Value} (h : v.isList = true) (ev : Evaluator) (length room : Nat) :
    renderIn ev length (room + 1) v =
      renderSpine ev (renderIn ev length room) true "(" length v := by
  cases v with
  | nil | cons => simp only [renderIn]
  | int | bool | prim | closure => cases h

/-- A rendering is the text of what is seen. -/
theorem renderIn_eq_run (ev : Evaluator) (length room : Nat) (v : Value) :
    renderIn ev length room v = Sight.text <$> (v.look length room).run ev := by
  induction room generalizing v with
  | zero =>
      cases hleaf : v.leaf? with
      | some l =>
          rw [renderIn_of_leaf hleaf, Value.look_of_leaf hleaf, Inquiry.run, map_pure, Sight.text]
      | none =>
          rw [renderIn_zero (Value.isList_of_leaf? hleaf), Value.look_zero hleaf, Inquiry.run,
            map_pure, Sight.text]
  | succ room ih =>
      cases hleaf : v.leaf? with
      | some l =>
          rw [renderIn_of_leaf hleaf, Value.look_of_leaf hleaf, Inquiry.run, map_pure, Sight.text]
      | none =>
          rw [renderIn_succ (Value.isList_of_leaf? hleaf), funext ih, renderSpine_eq_run,
            Value.look_succ hleaf, Inquiry.run_bind, map_bind]
          simp only [Inquiry.run, map_pure, Sight.text, spaced_true, bind_pure_comp]

end PolicyEval
