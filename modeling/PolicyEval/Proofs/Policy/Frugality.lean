import Mathlib.Algebra.Order.Group.Multiset
import PolicyEval.Proofs.Eval.Kinship

/-!
# Plans that use every cell once

If arguments are evaluated at every use, a name never leads to the same list cell twice: each use
makes a cell of its own.  So the parts of a list cell are forced at most once, by whoever was given
the cell.  This is a matter of plans alone: a plan owns the store cells in the parts of the list
cells that it was given, and every request gives away what it uses.

* `Value.cells`, `Thunk.cells` — the store cells that a value or a thunk gives access to.
* `Env.Clear` — environments through which no store cell can be reached.
* `Plan.Frugal` — a plan that uses each of its store cells at most once.
* `plan_frugal`, `step_frugal`, `program_frugal` — the plans of evaluations are frugal.
-/

namespace PolicyEval

/-- The store cell of a thunk. -/
def Thunk.cells : Thunk → Multiset Nat
  | .byNeed address _ => {address}
  | _ => 0

/-- The store cells of the parts of a value. -/
def Value.cells : Value → Multiset Nat
  | .cons _ head tail => head.cells + tail.cells
  | _ => 0

theorem Value.IsAtom.cells_eq {v : Value} (h : v.IsAtom) : v.cells = 0 := by
  cases v <;> first | exact h.elim | rfl

/-- No binding gives access to a store cell. -/
def Env.Clear : Env → Prop
  | .empty => True
  | .frame _ _ thunk rest => thunk.cells = 0 ∧ rest.Clear

/-- The store cells of both sides. -/
def Comparison.cells : Comparison → Multiset Nat
  | .values left right => left.cells + right.cells
  | .tails left right => left.cells + right.cells
  | .envs _ _ => 0

/-- Environments that are compared give access to no store cell. -/
def Comparison.Clear : Comparison → Prop
  | .envs left right => left.Clear ∧ right.Clear
  | _ => True

/-- The store cells of all that is to be compared. -/
def queueCells (todo : List Comparison) : Multiset Nat := (todo.map Comparison.cells).sum

@[simp] theorem queueCells_nil : queueCells [] = 0 := rfl

@[simp] theorem queueCells_cons (c : Comparison) (todo : List Comparison) :
    queueCells (c :: todo) = c.cells + queueCells todo := by
  simp [queueCells]

theorem Env.Clear.lookup {ρ : Env} (h : ρ.Clear) {name : Name} {x : Thunk}
    (hx : ρ.lookup name = some x) : x.cells = 0 := by
  induction ρ using Env.lookup.induct name with
  | case1 => cases hx
  | case2 tag bound thunk rest hname =>
      rw [Env.lookup, if_pos hname] at hx
      cases hx
      exact h.1
  | case3 tag bound thunk rest hname ih =>
      rw [Env.lookup, if_neg hname] at hx
      exact ih h.2 hx

/-! ## Frugal plans -/

/-- A plan that owns some store cells, forces each of them at most once, and ends with what satisfies
`post` together with the cells that are left.  What a request yields comes with cells of its own. -/
inductive Plan.Frugal {α : Type} (post : Multiset Nat → α → Prop) : Multiset Nat → Plan α → Prop
  | done {L : Multiset Nat} {a : α} (h : post L a) : Frugal post L (.done a)
  | fail {L : Multiset Nat} {cause : FaultCause} : Frugal post L (.fail cause)
  | count {L : Multiset Nat} {step : Counters → Counters} {p : Plan α} (h : Frugal post L p) :
      Frugal post L (.count step p)
  | eval {L : Multiset Nat} {setting : Setting} {ρ : Env} {e : Expr} {next : Value → Plan α}
      (hnext : ∀ v, Frugal post (v.cells + L) (next v)) :
      Frugal post L (.eval setting ρ e next)
  | force {L M : Multiset Nat} {x : Thunk} {next : Value → Plan α} (hx : x.cells + M ≤ L)
      (hnext : ∀ v, Frugal post (v.cells + M) (next v)) :
      Frugal post L (.force x next)
  | delay {L : Multiset Nat} {d : Discipline} {setting : Setting} {ρ : Env} {e : Expr}
      {next : Thunk → Plan α}
      (hnext : ∀ x, (d = .name → x.cells = 0) → Frugal post (x.cells + L) (next x)) :
      Frugal post L (.delay d setting ρ e next)
  | cell {L : Multiset Nat} {x y : Thunk} {next : Value → Plan α}
      (hnext : ∀ tag, Frugal post L (next (.cons tag x y))) : Frugal post L (.cell x y next)
  | closure {L : Multiset Nat} {lambda : Lambda} {ρ : Env} {next : Value → Plan α}
      (hnext : ∀ tag, Frugal post L (next (.closure tag lambda ρ))) :
      Frugal post L (.closure lambda ρ next)
  | extend {L : Multiset Nat} {ρ : Env} {bindings : List (Name × Thunk)} {next : Env → Plan α}
      (hbindings : ∀ b ∈ bindings, b.2.cells = 0) (hnext : ∀ inner, Frugal post L (next inner)) :
      Frugal post L (.extend ρ bindings next)
  | compare {L M : Multiset Nat} {todo : List Comparison} {next : Bool → Plan α}
      (htodo : queueCells todo + M ≤ L) (hnext : ∀ t, Frugal post M (next t)) :
      Frugal post L (.compare todo next)

namespace Plan.Frugal

variable {α β : Type} {post : Multiset Nat → α → Prop} {L : Multiset Nat}

theorem lift {result : Except FaultCause β} {next : β → Plan α}
    (h : ∀ b, result = .ok b → Frugal post L (next b)) : Frugal post L (Plan.lift result next) := by
  cases result with
  | ok b => exact h b rfl
  | error cause => exact .fail

theorem delays {setting : Setting} (hname : setting.policy.args = .name) (ρ : Env)
    (bindings : List (Name × Expr)) {next : List (Name × Thunk) → Plan α}
    (hnext : ∀ bs : List (Name × Thunk), (∀ b ∈ bs, b.2.cells = 0) → Frugal post L (next bs)) :
    Frugal post L (Plan.delays setting ρ bindings next) := by
  induction bindings generalizing next with
  | nil => exact hnext [] nofun
  | cons binding rest ih =>
      obtain ⟨name, e⟩ := binding
      refine .delay fun x hx => ?_
      rw [hx hname, zero_add]
      exact ih fun bs hbs => hnext _ (List.forall_mem_cons.2 ⟨hx hname, hbs⟩)

end Plan.Frugal

/-! ## The plans of expressions -/

/-- A value may be handed on with the store cells of its parts. -/
def Value.Covered (L : Multiset Nat) (v : Value) : Prop := v.cells ≤ L

section

variable {setting : Setting} {L : Multiset Nat}

theorem atom_frugal {v : Value} (h : v.IsAtom) : (Plan.done v).Frugal Value.Covered L := by
  refine .done ?_
  unfold Value.Covered
  rw [h.cells_eq]
  exact Multiset.zero_le L

theorem eval_frugal (ρ : Env) (e : Expr) :
    (Plan.eval setting ρ e .done).Frugal Value.Covered L :=
  .eval fun v => .done (Multiset.le_add_right v.cells L)

theorem scalar_frugal {result : Except FaultCause Value} (hplain : IsPlain result) :
    (Plan.lift result .done).Frugal Value.Covered L := by
  refine .lift fun v hv => ?_
  rw [hv] at hplain
  exact atom_frugal hplain.isAtom

theorem binding_frugal (hname : setting.policy.args = .name) (ρ outer : Env)
    (bindings : List (Name × Expr)) (body : Expr) :
    (bindingPlan setting ρ outer bindings body).Frugal Value.Covered L :=
  .delays hname ρ bindings fun _ hbs => .extend hbs fun inner => eval_frugal inner body

theorem cons_frugal (ρ : Env) (head tail : Expr) :
    (consPlan setting ρ head tail).Frugal Value.Covered L := by
  refine .delay fun x _ => .delay fun y _ => .lift fun y' hy => .count (.cell fun tag => .done ?_)
  obtain rfl := (Thunk.asTail_eq_ok.1 hy).2
  change x.cells + y'.cells ≤ y'.cells + (x.cells + L)
  rw [← add_assoc, add_comm x.cells]
  exact Multiset.le_add_right _ L

/-- A primitive that takes a list cell apart forces one of its parts. -/
theorem prim_frugal (p : Prim) (v : Value) : (p.plan v).Frugal Value.Covered (v.cells + L) := by
  cases hinspect : p.inspect v with
  | some result =>
      simp only [Prim.plan, hinspect]
      exact scalar_frugal (Prim.inspect_plain hinspect)
  | none =>
      obtain ⟨tag, head, tail, rfl, -⟩ := Prim.inspect_eq_none hinspect
      simp only [Prim.plan, hinspect]
      split
      · refine .force (M := 0) ?_ fun u => .done (Multiset.le_add_right _ _)
        rw [add_zero, Value.cells, add_assoc]
        exact Multiset.le_add_right _ _
      · refine .force (M := 0) ?_ fun u => .lift fun w hw => .done ?_
        · rw [add_zero, Value.cells, add_right_comm]
          exact Multiset.le_add_left _ _
        · obtain rfl := (asTail_eq_ok.1 hw).2
          exact Multiset.le_add_right _ _

theorem call_frugal (hname : setting.policy.args = .name) (ρ : Env) (v : Value) (args : List Expr) :
    (callPlan setting ρ v args).Frugal Value.Covered L := by
  cases v with
  | int | bool | nil | cons => exact .fail
  | closure tag lambda captured =>
      simp only [callPlan]
      split
      · exact .count (binding_frugal hname ρ captured _ _)
      · exact .fail
  | prim p =>
      refine .count ?_
      split
      · split
        · exact cons_frugal ρ _ _
        · exact .eval fun v => prim_frugal p v
        · exact .fail
      · exact .fail

theorem binary_frugal (op : BinaryOp) (a b : Value) :
    (op.plan a b).Frugal Value.Covered (b.cells + (a.cells + L)) := by
  unfold BinaryOp.plan
  cases hstrict : strictBinary op a b with
  | some result => exact scalar_frugal (strictBinary_plain hstrict)
  | none =>
      refine .compare (M := L) ?_ fun t => atom_frugal trivial
      simp only [queueCells_cons, queueCells_nil, add_zero, Comparison.cells]
      rw [add_comm a.cells, add_assoc]

/-- The plan of an expression is frugal if arguments are evaluated at every use and the environment
gives access to no store cell. -/
theorem plan_frugal (hname : setting.policy.args = .name) {ρ : Env} (hρ : ρ.Clear) (e : Expr) :
    (e.plan setting ρ).Frugal Value.Covered 0 := by
  cases e with
  | int | bool | null | prim => exact atom_frugal trivial
  | map => exact .closure fun tag => .done (Multiset.zero_le 0)
  | ident place name =>
      simp only [Expr.plan]
      cases hx : ρ.lookup name with
      | none => exact .fail
      | some x =>
          refine .force (M := 0) ?_ fun v => .done (Multiset.le_add_right _ _)
          rw [hρ.lookup hx, add_zero]
  | unary place op operand => exact .eval fun v => scalar_frugal (applyUnary_plain op v)
  | binary place op left right =>
      refine .eval fun a => ?_
      cases op.decisive? with
      | none => exact .eval fun b => binary_frugal op a b
      | some decisive =>
          refine .lift fun x _ => ?_
          split
          · exact atom_frugal trivial
          · exact .eval fun b => .lift fun y _ => atom_frugal trivial
  | call place callee args => exact .eval fun v => call_frugal hname ρ v args
  | cond place test yes no => exact .eval fun v => .lift fun b _ => eval_frugal ρ _
  | letIn place defs body => exact binding_frugal hname ρ ρ _ body

end

/-! ## The plans of comparisons, renderings and programs -/

theorem compare_frugal {todo : List Comparison} {L : Multiset Nat} (h : queueCells todo ≤ L) :
    (Plan.compare todo .done).Frugal (fun _ _ => True) L :=
  .compare (M := 0) (by rwa [add_zero]) fun _ => .done trivial

/-- Two parts are forced, and their values are compared before what comes next. -/
theorem parts_frugal {x y : Thunk} {c : Comparison} {todo : List Comparison} {L : Multiset Nat}
    (h : x.cells + (y.cells + queueCells (c :: todo)) ≤ L) :
    ((Meeting.parts x y c).plan todo).Frugal (fun _ _ => True) L := by
  refine .force h fun v => ?_
  refine .force (M := v.cells + queueCells (c :: todo)) (by rw [add_left_comm]) fun u => ?_
  refine compare_frugal ?_
  rw [queueCells_cons, Comparison.cells, add_comm v.cells, add_assoc]

/-- Parts are left to be compared if two list cells meet. -/
theorem Value.meet_eq_parts {a b : Value} {x y : Thunk} {c : Comparison}
    (h : a.meet b = .parts x y c) :
    ∃ t t' z z', a = .cons t x z ∧ b = .cons t' y z' ∧ c = .tails z z' := by
  unfold Value.meet at h
  split at h
  · split at h <;> cases h
  · split at h <;> cases h
  · split at h <;> cases h
  · split at h <;> cases h
  · cases h
  · cases h
    exact ⟨_, _, _, _, rfl, rfl, rfl⟩
  · cases h

theorem values_frugal (a b : Value) (todo : List Comparison) :
    ((a.meet b).plan todo).Frugal (fun _ _ => True) (queueCells (.values a b :: todo)) := by
  have hrest : queueCells todo ≤ queueCells (.values a b :: todo) := by
    rw [queueCells_cons]
    exact Multiset.le_add_left _ _
  cases hmeet : a.meet b with
  | equal => exact compare_frugal hrest
  | unequal => exact .done trivial
  | envs left right =>
      refine compare_frugal ?_
      rw [queueCells_cons, Comparison.cells, zero_add]
      exact hrest
  | parts x y c =>
      obtain ⟨t, t', z, z', rfl, rfl, rfl⟩ := Value.meet_eq_parts hmeet
      refine parts_frugal (le_of_eq ?_)
      simp only [queueCells_cons, Comparison.cells, Value.cells]
      ac_rfl

theorem envs_frugal {a b : Env} (ha : a.Clear) (hb : b.Clear) (todo : List Comparison) :
    ((a.meet b).plan todo).Frugal (fun _ _ => True) (queueCells (.envs a b :: todo)) := by
  have hcells : queueCells (.envs a b :: todo) = queueCells todo := by
    rw [queueCells_cons, Comparison.cells, zero_add]
  rw [hcells]
  cases a with
  | empty =>
      cases b with
      | empty => exact compare_frugal le_rfl
      | frame => exact .done trivial
  | frame tag name x rest =>
      cases b with
      | empty => exact .done trivial
      | frame tag' name' x' rest' =>
          simp only [Env.meet]
          split
          · refine parts_frugal (le_of_eq ?_)
            rw [ha.1, hb.1, queueCells_cons, Comparison.cells, zero_add, zero_add, zero_add]
          · exact .done trivial

/-- A step of comparing uses the store cells of what is to be compared, each at most once. -/
theorem step_frugal (same : Comparison → Bool) {todo : List Comparison}
    (h : ∀ c ∈ todo, c.Clear) :
    (stepPlan same todo).Frugal (fun _ _ => True) (queueCells todo) := by
  cases todo with
  | nil => exact .done trivial
  | cons c todo =>
      simp only [stepPlan]
      split
      · refine compare_frugal ?_
        rw [queueCells_cons]
        exact Multiset.le_add_left _ _
      · cases c with
        | values a b => exact values_frugal a b todo
        | envs a b =>
            have hclear := h _ List.mem_cons_self
            exact envs_frugal hclear.1 hclear.2 todo
        | tails x y =>
            refine .force (M := y.cells + queueCells todo) ?_ fun v => .lift fun v' hv => ?_
            · rw [queueCells_cons, Comparison.cells, add_assoc]
            · obtain rfl := (asTail_eq_ok.1 hv).2
              refine .force (M := v'.cells + queueCells todo) (by rw [add_left_comm]) ?_
              refine fun u => .lift fun u' hu => compare_frugal ?_
              obtain rfl := (asTail_eq_ok.1 hu).2
              rw [queueCells_cons, Comparison.cells, add_comm v'.cells, add_assoc]

section

variable {post : Multiset Nat → String → Prop} {L L' : Multiset Nat}

theorem spine_frugal {item : Value → (String → Plan String) → Plan String}
    (hitem : ∀ v L L' next, v.cells + L' ≤ L → (∀ L s, L' ≤ L → (next s).Frugal post L) →
      (item v next).Frugal post L)
    (left : Nat) (isFirst : Bool) (out : String) (v : Value) {next : String → Plan String}
    (hv : v.cells + L' ≤ L) (hnext : ∀ L s, L' ≤ L → (next s).Frugal post L) :
    (spinePlan item isFirst out left v next).Frugal post L := by
  have hrest : L' ≤ L := (Multiset.le_add_left _ _).trans hv
  induction left generalizing L isFirst out v with
  | zero => cases v <;> exact hnext _ _ hrest
  | succ left ih =>
      cases v with
      | int | bool | prim | closure | nil => exact hnext _ _ hrest
      | cons tag x y =>
          refine .force (M := y.cells + L') ?_ fun a => ?_
          · rwa [← add_assoc]
          · refine hitem a _ _ _ le_rfl fun M s hM => .force hM fun b => .lift fun b' hb => ?_
            obtain rfl := (asTail_eq_ok.1 hb).2
            exact ih false _ b' le_rfl (Multiset.le_add_left _ _)

/-- Rendering a value uses the store cells of its parts, each at most once. -/
theorem render_frugal (printDepth room : Nat) (v : Value) {next : String → Plan String}
    (hv : v.cells + L' ≤ L) (hnext : ∀ L s, L' ≤ L → (next s).Frugal post L) :
    (renderPlan printDepth room v next).Frugal post L := by
  have hrest : L' ≤ L := (Multiset.le_add_left _ _).trans hv
  induction room generalizing L L' v next with
  | zero =>
      cases v with
      | bool b => cases b <;> exact hnext _ _ hrest
      | int | prim | closure | nil | cons => exact hnext _ _ hrest
  | succ room ih =>
      cases v with
      | bool b => cases b <;> exact hnext _ _ hrest
      | int | prim | closure => exact hnext _ _ hrest
      | nil | cons =>
          refine spine_frugal (fun v L L' next hv hnext => ?_) printDepth true "(" _ hv hnext
          exact ih v hv hnext ((Multiset.le_add_left _ _).trans hv)

/-- The plan of a program is frugal. -/
theorem program_frugal (config : Config) (root : Expr) :
    (programPlan config root).Frugal (fun _ _ => True) 0 :=
  .eval fun v => render_frugal _ _ v le_rfl fun _ _ _ => .done trivial

end

end PolicyEval
