import PolicyEval.Proofs.Eval.Composition
import PolicyEval.Proofs.Render.Sight

/-!
# The text of a value

A rendering under a print depth looks at the first elements of each list, as many as the print depth
says, and into lists nested that deep.  The parts it asks for decide everything: its text, the fault
it ends with, and whether it ends at all.

A value holds a datum if its parts are known or kept by the store, down to the last one.  Its text
is then a listing of the datum.

* `Value.SeenAs`, `Value.Awaits` — what a rendering sees, and the part it asks for next.
* `Datum`, `Value.Holds` — evaluated data, and the values that hold them.
* `Datum.sight` — what is seen of a datum.
* `Datum.Fits` — data that are seen in full.
* `renderValue_writes_sight` — what a rendering forces and writes.
-/

namespace PolicyEval

/-! ## Looking under a print depth -/

/-- Under a print depth, forcing parts of the value shows this much of it. -/
def Value.SeenAs (printDepth : Nat) (v : Value) (s : State) (sight : Sight) (s' : State) : Prop :=
  ∃ asked, v.Reveals printDepth printDepth asked sight ∧ Answered s asked s'

/-- Under a print depth, this part is asked for after these answers. -/
def Value.Awaits (printDepth : Nat) (v : Value) (asked : Answers) (p : CellPart) : Prop :=
  ∃ w rest sight, v.Reveals printDepth printDepth (asked ++ (p, w) :: rest) sight

/-- A rendering, as an inquiry. -/
def Value.rendering (printDepth : Nat) (v : Value) : Inquiry String :=
  (v.look printDepth printDepth).bind fun sight => .done sight.text

section

variable {printDepth : Nat} {v : Value} {asked : Answers}

theorem renderValue_eq_run (ev : Evaluator) (printDepth : Nat) (v : Value) :
    renderValue ev printDepth v = (v.rendering printDepth).run ev := by
  simp only [renderValue, renderIn_eq_run, Value.rendering, Inquiry.run_bind, Inquiry.run,
    bind_pure_comp]

theorem Value.trace_rendering_iff {text : String} :
    (v.rendering printDepth).Trace asked text ↔
      ∃ sight, v.Reveals printDepth printDepth asked sight ∧ text = sight.text := by
  simp only [rendering, Inquiry.trace_bind_iff, Inquiry.trace_done_iff, trace_look_iff]
  constructor
  · rintro ⟨sight, first, _, rfl, hreveals, rfl, rfl⟩
    exact ⟨sight, by rwa [List.append_nil], rfl⟩
  · rintro ⟨sight, hreveals, rfl⟩
    exact ⟨sight, asked, [], (List.append_nil _).symm, hreveals, rfl, rfl⟩

theorem Value.awaits_rendering_iff {p : CellPart} :
    (v.rendering printDepth).Awaits asked p ↔ v.Awaits printDepth asked p := by
  simp only [Inquiry.Awaits, trace_rendering_iff, Value.Awaits]
  constructor
  · rintro ⟨w, rest, _, sight, hreveals, -⟩
    exact ⟨w, rest, sight, hreveals⟩
  · rintro ⟨w, rest, sight, hreveals⟩
    exact ⟨w, rest, _, sight, hreveals, rfl⟩

/-- A rendering writes what is seen. -/
theorem renderValue_endsAs_ok_iff {s s' : State} {text : String} :
    EndsAs (fun n => renderValue (eval n) printDepth v) s (.ok text s') ↔
      ∃ sight, v.SeenAs printDepth s sight s' ∧ text = sight.text := by
  simp only [renderValue_eq_run, Inquiry.endsAs_ok_iff, Value.trace_rendering_iff, Value.SeenAs]
  constructor
  · rintro ⟨asked, ⟨sight, hreveals, rfl⟩, hasked⟩
    exact ⟨sight, ⟨asked, hreveals, hasked⟩, rfl⟩
  · rintro ⟨sight, ⟨asked, hreveals, hasked⟩, rfl⟩
    exact ⟨asked, ⟨sight, hreveals, rfl⟩, hasked⟩

end

/-! ## Evaluated data -/

/-- Leaves and finite lists. -/
inductive Datum where
  | leaf (l : Leaf)
  | list (items : List Datum)

/-- What is seen of a datum with `room` for nested lists and at most `length` elements of each
list. -/
def Datum.sight (length : Nat) : Nat → Datum → Sight
  | _, leaf l => .leaf l
  | 0, list _ => .elided
  | room + 1, list items =>
    .list ((items.take length).map (Datum.sight length room)) (decide (length < items.length))

theorem Datum.sight_leaf (length room : Nat) (l : Leaf) :
    (Datum.leaf l).sight length room = .leaf l := by
  cases room <;> rfl

/-- Lists have at most `length` elements each and are nested at most `room` deep. -/
inductive Datum.Fits (length : Nat) : Nat → Datum → Prop
  | leaf {room : Nat} {l : Leaf} : Datum.Fits length room (.leaf l)
  | list {room : Nat} {items : List Datum} (hlength : items.length ≤ length)
      (hitems : ∀ item ∈ items, Datum.Fits length room item) :
      Datum.Fits length (room + 1) (.list items)

/-- A datum that fits is seen in full, and wider bounds show no more of it. -/
theorem Datum.Fits.sight_eq {length room length' room' : Nat} {x : Datum} (h : x.Fits length room)
    (hlength : length ≤ length') (hroom : room ≤ room') :
    x.sight length' room' = x.sight length room := by
  induction h generalizing room' with
  | leaf => rw [sight_leaf, sight_leaf]
  | @list room items hitems _ ih =>
      obtain ⟨room', rfl⟩ : ∃ k, room' = k + 1 := ⟨room' - 1, by omega⟩
      simp only [sight]
      rw [List.take_of_length_le hitems, List.take_of_length_le (Nat.le_trans hitems hlength),
        List.map_congr_left fun item hitem => ih item hitem (Nat.le_of_succ_le_succ hroom)]
      congr 1
      rw [decide_eq_false (by omega), decide_eq_false (by omega)]

/-- The value of the thunk is known, or kept by the store. -/
inductive Thunk.Has (store : Store) : Thunk → Value → Prop
  | ready {v : Value} : Thunk.Has store (.ready v) v
  | kept {address : Nat} {q : Suspension} {v : Value} (h : store.kept? address = some v) :
      Thunk.Has store (.byNeed address q) v

/-- Every part of the value is known or kept, and together they are this datum. -/
inductive Value.Holds (store : Store) : Value → Datum → Prop
  | leaf {v : Value} {l : Leaf} (h : v.leaf? = some l) : Value.Holds store v (.leaf l)
  | nil : Value.Holds store .nil (.list [])
  | cons {tag : Nat} {x y : Thunk} {head tail : Value} {item : Datum} {items : List Datum}
      (hx : x.Has store head) (hhead : Value.Holds store head item)
      (hy : y.Has store tail) (htail : Value.Holds store tail (.list items)) :
      Value.Holds store (.cons tag x y) (.list (item :: items))

section

variable {s : State}

theorem Value.Holds.isList {store : Store} {v : Value} {items : List Datum}
    (h : v.Holds store (.list items)) : v.isList = true := by
  cases h <;> rfl

/-- Forcing a known or kept part changes nothing. -/
theorem Thunk.Has.force {x : Thunk} {v : Value} (h : x.Has s.store v) (ev : Evaluator) :
    PolicyEval.force ev x s = .ok v s := by
  cases h with
  | ready => rfl
  | kept h => exact Eval.force_of_kept h

theorem Thunk.Has.endsAs_head {x : Thunk} {v : Value} (h : x.Has s.store v) :
    EndsAs (fun n => (CellPart.head x).force (eval n)) s (.ok v s) :=
  endsAs_iff.2 ⟨Eval.not_isStarved_ok, 0, fun fuel _ => h.force (eval fuel)⟩

theorem Thunk.Has.endsAs_tail {x : Thunk} {v : Value} (h : x.Has s.store v)
    (hlist : v.isList = true) : EndsAs (fun n => (CellPart.tail x).force (eval n)) s (.ok v s) := by
  refine endsAs_iff.2 ⟨Eval.not_isStarved_ok, 0, fun fuel _ => ?_⟩
  have htail : PolicyEval.asTail v = .ok v := PolicyEval.asTail_eq_ok.2 ⟨hlist, rfl⟩
  rw [CellPart.force, forceTail, Eval.bind_of_ok (h.force (eval fuel)), htail]
  rfl

theorem Answered.append {s₁ s' : State} {asked rest : Answers} (h : Answered s asked s₁)
    (hrest : Answered s₁ rest s') : Answered s (asked ++ rest) s' := by
  induction h with
  | nil => exact hrest
  | cons hforce _ ih => exact .cons hforce (ih hrest)

/-- What is seen of the elements of a list, if looking into one of them changes nothing. -/
theorem Value.Holds.revealsItems {length room : Nat}
    (hitem : ∀ {v : Value} {x : Datum}, v.Holds s.store x →
      ∃ asked, v.Reveals length room asked (x.sight length room) ∧ Answered s asked s)
    {items : List Datum} {v : Value} (h : v.Holds s.store (.list items)) (left : Nat) :
    ∃ asked, v.RevealsItems length room left asked
        ((items.take left).map (Datum.sight length room)) (decide (left < items.length)) ∧
      Answered s asked s := by
  induction items generalizing v left with
  | nil =>
      cases h with
      | nil => exact ⟨[], by simpa using .nil, .nil⟩
  | cons item items ih =>
      cases h with
      | cons hx hhead hy htail =>
          cases left with
          | zero => exact ⟨[], by simpa using .cut, .nil⟩
          | succ left =>
              obtain ⟨inside, hreveals, hinside⟩ := hitem hhead
              obtain ⟨behind, hbehind, hasked⟩ := ih htail left
              refine ⟨_, ?_, .cons hx.endsAs_head
                (hinside.append (.cons (hy.endsAs_tail htail.isList) hasked))⟩
              simp only [List.take_succ_cons, List.map_cons, List.length_cons,
                Nat.add_lt_add_iff_right]
              exact .cell hreveals hbehind

/-- What is seen of an evaluated value is what is seen of its datum, and looking changes nothing. -/
theorem Value.Holds.reveals {v : Value} {x : Datum} (h : v.Holds s.store x) (length room : Nat) :
    ∃ asked, v.Reveals length room asked (x.sight length room) ∧ Answered s asked s := by
  induction room generalizing v x with
  | zero =>
      cases x with
      | leaf l =>
          cases h with
          | leaf hleaf => exact ⟨[], .leaf hleaf, .nil⟩
      | list items => exact ⟨[], .elided h.isList, .nil⟩
  | succ room ih =>
      cases x with
      | leaf l =>
          cases h with
          | leaf hleaf => exact ⟨[], .leaf hleaf, .nil⟩
      | list items =>
          obtain ⟨asked, hitems, hasked⟩ := h.revealsItems ih length
          exact ⟨asked, .list hitems, hasked⟩

/-- An evaluated value is written as its datum. -/
theorem Value.Holds.endsAs {v : Value} {x : Datum} (h : v.Holds s.store x) (printDepth : Nat) :
    EndsAs (fun n => renderValue (eval n) printDepth v) s
      (.ok (x.sight printDepth printDepth).text s) :=
  renderValue_endsAs_ok_iff.2 ⟨_, h.reveals printDepth printDepth, rfl⟩

end

/-! ## What a rendering forces and writes -/

/-- A rendering is bounded, and faithful to what it sees.

It asks for the head and the tail of each cell that the print depth lets it see, from left to right,
each head and what is inside of it before the tail, and for nothing else.  It succeeds if all of
them have values, then with the text of what is seen; it fails as the first one that fails; and it
ends unless one of them goes on forever.  So values that look the same have the same text.

The text of an evaluated value is the listing of its datum, and forcing changes nothing then.  Where
the datum fits, a greater print depth gives the same text. -/
theorem renderValue_writes_sight (printDepth : Nat) (v : Value) (s : State) :
    let rendering (v : Value) (n : Nat) : Eval String := renderValue (eval n) printDepth v
    let forcing (p : CellPart) (n : Nat) : Eval Value := p.force (eval n)
    (∀ text s', EndsAs (rendering v) s (.ok text s') ↔
      ∃ sight asked, v.Reveals printDepth printDepth asked sight ∧ Answered s asked s' ∧
        text = sight.text) ∧
    (∀ f s', EndsAs (rendering v) s (.error (.fault f) s') ↔
      ∃ asked p s₁, v.Awaits printDepth asked p ∧ Answered s asked s₁ ∧
        EndsAs (forcing p) s₁ (.error (.fault f) s')) ∧
    (Terminates (rendering v) s ↔
      ∀ asked p s₁, v.Awaits printDepth asked p → Answered s asked s₁ →
        Terminates (forcing p) s₁) ∧
    (∀ sight s' w t t', v.SeenAs printDepth s sight s' → w.SeenAs printDepth t sight t' →
      ∃ text, EndsAs (rendering v) s (.ok text s') ∧ EndsAs (rendering w) t (.ok text t')) ∧
    ∀ x, v.Holds s.store x →
      EndsAs (rendering v) s (.ok (x.sight printDepth printDepth).text s) ∧
      (x.Fits printDepth printDepth → ∀ printDepth', printDepth ≤ printDepth' →
        EndsAs (fun n => renderValue (eval n) printDepth' v) s
          (.ok (x.sight printDepth printDepth).text s)) := by
  intro rendering forcing
  refine ⟨?_, ?_, ?_, ?_, ?_⟩
  · intro text s'
    rw [renderValue_endsAs_ok_iff]
    constructor
    · rintro ⟨sight, ⟨asked, hreveals, hasked⟩, rfl⟩
      exact ⟨sight, asked, hreveals, hasked, rfl⟩
    · rintro ⟨sight, asked, hreveals, hasked, rfl⟩
      exact ⟨sight, ⟨asked, hreveals, hasked⟩, rfl⟩
  · intro f s'
    simp only [rendering, forcing, renderValue_eq_run, Inquiry.endsAs_fault_iff,
      Value.awaits_rendering_iff]
  · simp only [rendering, forcing, renderValue_eq_run, Inquiry.terminates_iff,
      Value.awaits_rendering_iff]
  · intro sight s' w t t' hv hw
    exact ⟨sight.text, renderValue_endsAs_ok_iff.2 ⟨sight, hv, rfl⟩,
      renderValue_endsAs_ok_iff.2 ⟨sight, hw, rfl⟩⟩
  · intro x hx
    refine ⟨hx.endsAs printDepth, fun hfits printDepth' hle => ?_⟩
    rw [← hfits.sight_eq hle hle]
    exact hx.endsAs printDepth'

/-- The endless list of ones that `f(f)` is for `f` the function `map g to cons(1, g(g))`, seen two
elements far; and the list `(1 (2))`, all of which is seen. -/
theorem renderValue_writes_sight_ones :
    let place : Place := ⟨0, ⟨0, 0⟩⟩
    let g : Name := ⟨0, "g"⟩
    let again : Expr := .call place (.ident place g) [.ident place g]
    let lambda : Lambda := ⟨place, [⟨g, ⟨0, 0⟩⟩],
      .call place (.prim place .cons) [.int place 1, again]⟩
    let delayed (tag : Nat) (e : Expr) : Thunk :=
      .byName ⟨⟨⟨.value, .name⟩, none⟩, .frame tag g (.ready (.closure 0 lambda .empty)) .empty, e⟩
    let ones (tag : Nat) : Value := .cons (tag + 1) (delayed tag (.int place 1)) (delayed tag again)
    let short : Value := .cons 0 (.ready (.int 1))
      (.ready (.cons 1 (.ready (.cons 2 (.ready (.int 2)) (.ready .nil))) (.ready .nil)))
    let s := State.start ⟨#[], 3⟩
    (∃ s', EndsAs (fun n => renderValue (eval n) 2 (ones 1)) s (.ok "(1 1 ...)" s')) ∧
      ∀ printDepth, 2 ≤ printDepth →
        EndsAs (fun n => renderValue (eval n) printDepth short) s (.ok "(1 (2))" s) := by
  intro place g again lambda delayed ones short s
  constructor
  · let after (p : CellPart) (s : State) : State := (p.force (eval 9)).after s
    have hforce : ∀ {p : CellPart} {s : State} {v : Value}, p.force (eval 9) s = .ok v (after p s) →
        EndsAs (fun n => p.force (eval n)) s (.ok v (after p s)) := by
      intro p s v h
      have hends : ¬Eval.IsStarved (p.force (eval 9) s) := by
        rw [h]
        exact Eval.not_isStarved_ok
      exact h ▸ CellPart.endsAs_of_force hends
    let asked : Answers :=
      [(.head (delayed 1 (.int place 1)), .int 1), (.tail (delayed 1 again), ones 3),
        (.head (delayed 3 (.int place 1)), .int 1), (.tail (delayed 3 again), ones 5)]
    have hreveals : (ones 1).Reveals 2 2 asked (.list [.leaf (.int 1), .leaf (.int 1)] true) :=
      .list (.cell (.leaf rfl) (.cell (.leaf rfl) .cut))
    have hasked : Answered s asked _ := .cons (hforce (by with_unfolding_all rfl))
      (.cons (hforce (by with_unfolding_all rfl)) (.cons (hforce (by with_unfolding_all rfl))
        (.cons (hforce (by with_unfolding_all rfl)) .nil)))
    exact ⟨_, ((renderValue_writes_sight 2 (ones 1) s).1 _ _).2
      ⟨_, asked, hreveals, hasked, by decide +kernel⟩⟩
  · have hholds : short.Holds s.store (.list [.leaf (.int 1), .list [.leaf (.int 2)]]) :=
      .cons .ready (.leaf rfl) .ready
        (.cons .ready (.cons .ready (.leaf rfl) .ready .nil) .ready .nil)
    have hfits : (Datum.list [.leaf (.int 1), .list [.leaf (.int 2)]]).Fits 2 2 :=
      .list (by decide) (by simpa using ⟨.leaf, .list (by decide) (by simpa using .leaf)⟩)
    have htext : "(1 (2))" =
        ((Datum.list [.leaf (.int 1), .list [.leaf (.int 2)]]).sight 2 2).text := by
      decide +kernel
    rw [htext]
    exact ((renderValue_writes_sight 2 short s).2.2.2.2 _ hholds).2 hfits

end PolicyEval
