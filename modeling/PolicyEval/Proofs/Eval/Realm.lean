import PolicyEval.Proofs.Eval.Cells
import PolicyEval.Proofs.Eval.Kinship

/-!
# Realms — data that an evaluation does not leave

A realm is a stock of data: the expressions of one program, the names they bind, and the values,
thunks and environments that are put together from them under one setting.  Evaluation stays in a
realm: an expression asks for nothing outside of it as long as it is given nothing from outside.

* `Expr.parts`, `Expr.mem_postorder` — the nodes of an expression are those of its parts and itself.
* `Realm` — the setting, the nodes and the names of a stock of data.
* `Value.Belongs`, `Thunk.Belongs`, `Env.Belongs` — the data of a realm.
* `Plan.Abides` — a plan whose requests stay in a realm.
* `Realm.plan_abides`, `Realm.program_abides` — the plans of expressions and programs stay there.
-/

namespace PolicyEval

/-! ## The nodes of an expression -/

namespace Expr

/-- The expressions right below the root node. -/
def parts : Expr → List Expr
  | unary _ _ operand => [operand]
  | binary _ _ left right => [left, right]
  | call _ callee args => callee :: args
  | map _ _ body => [body]
  | cond _ test yes no => [test, yes, no]
  | letIn _ defs body => defs.map Prod.snd ++ [body]
  | _ => []

mutual
theorem pushNodes_eq (done : Array Expr) : (e : Expr) → e.pushNodes done = done ++ e.pushNodes #[]
  | int .. | bool .. | null _ | ident .. | prim .. => by simp [pushNodes]
  | unary _ _ operand => by
      rw [pushNodes, pushNodes_eq done operand]
      simp [pushNodes]
  | binary _ _ left right => by
      rw [pushNodes, pushNodes_eq _ right, pushNodes_eq done left]
      conv => rhs; rw [pushNodes, pushNodes_eq _ right]
      simp
  | call _ callee args => by
      rw [pushNodes, pushNodesList_eq _ args, pushNodes_eq done callee]
      conv => rhs; rw [pushNodes, pushNodesList_eq _ args]
      simp
  | map _ _ body => by
      rw [pushNodes, pushNodes_eq done body]
      simp [pushNodes]
  | cond _ test yes no => by
      rw [pushNodes, pushNodes_eq _ no, pushNodes_eq _ yes, pushNodes_eq done test]
      conv => rhs; rw [pushNodes, pushNodes_eq _ no, pushNodes_eq _ yes]
      simp
  | letIn _ defs body => by
      rw [pushNodes, pushNodes_eq _ body, pushNodesDefs_eq done defs]
      conv => rhs; rw [pushNodes, pushNodes_eq _ body]
      simp

theorem pushNodesList_eq (done : Array Expr) :
    (es : List Expr) → pushNodesList done es = done ++ pushNodesList #[] es
  | [] => by simp [pushNodesList]
  | e :: es => by
      rw [pushNodesList, pushNodesList_eq _ es, pushNodes_eq done e]
      conv => rhs; rw [pushNodesList, pushNodesList_eq _ es]
      simp

theorem pushNodesDefs_eq (done : Array Expr) :
    (ds : List (Binder × Expr)) → pushNodesDefs done ds = done ++ pushNodesDefs #[] ds
  | [] => by simp [pushNodesDefs]
  | (_, e) :: ds => by
      rw [pushNodesDefs, pushNodesDefs_eq _ ds, pushNodes_eq done e]
      conv => rhs; rw [pushNodesDefs, pushNodesDefs_eq _ ds]
      simp
end

theorem mem_pushNodesList {d : Expr} {es : List Expr} :
    d ∈ pushNodesList #[] es ↔ ∃ e ∈ es, d ∈ e.postorder := by
  induction es with
  | nil => simp [pushNodesList]
  | cons e es ih =>
      rw [pushNodesList, pushNodesList_eq, Array.mem_append, ih]
      simp [postorder]

theorem mem_pushNodesDefs {d : Expr} {ds : List (Binder × Expr)} :
    d ∈ pushNodesDefs #[] ds ↔ ∃ e ∈ ds.map Prod.snd, d ∈ e.postorder := by
  induction ds with
  | nil => simp [pushNodesDefs]
  | cons b ds ih =>
      obtain ⟨binder, e⟩ := b
      rw [pushNodesDefs, pushNodesDefs_eq, Array.mem_append, ih]
      simp [postorder]

/-- The nodes of an expression are its root and the nodes of its parts. -/
theorem mem_postorder {d e : Expr} :
    d ∈ e.postorder ↔ d = e ∨ ∃ part ∈ e.parts, d ∈ part.postorder := by
  rw [or_comm]
  cases e with
  | int | bool | null | ident | prim | unary | map => simp [postorder, pushNodes, parts]
  | binary place op left right =>
      rw [postorder, pushNodes, pushNodes_eq]
      simp [postorder, parts, or_assoc]
  | call place callee args =>
      rw [postorder, pushNodes, pushNodesList_eq, Array.mem_push, Array.mem_append,
        mem_pushNodesList]
      simp [parts, postorder]
  | cond place test yes no =>
      rw [postorder, pushNodes, pushNodes_eq, pushNodes_eq _ yes]
      simp [postorder, parts, or_assoc]
  | letIn place defs body =>
      rw [postorder, pushNodes, pushNodes_eq, Array.mem_push, Array.mem_append,
        mem_pushNodesDefs]
      simp [parts, postorder, or_and_right, exists_or]

end Expr

/-! ## Realms -/

/-- The setting of an evaluation, the properties that all nodes of its expressions and all bound
names have, and the address of the first store cell that belongs to it. -/
structure Realm where
  setting : Setting
  node : Expr → Prop
  name : Name → Prop
  base : Nat
  map_names : ∀ {place params body}, node (.map place params body) →
    ∀ b ∈ params, name b.name
  letIn_names : ∀ {place defs body}, node (.letIn place defs body) → ∀ d ∈ defs, name d.1.name

namespace Realm

/-- All nodes of the expression belong to the realm. -/
def HasExpr (R : Realm) (e : Expr) : Prop := ∀ d ∈ e.postorder, R.node d

/-- Something is delayed under the discipline. -/
def Delays (R : Realm) (d : Discipline) : Prop :=
  d = R.setting.policy.args ∨ d = R.setting.policy.lists

/-- Some node of the realm may compare values in full. -/
def Compares (R : Realm) : Prop :=
  ∃ place op left right, (op = .eq ∨ op = .ne) ∧ R.node (.binary place op left right)

variable {R : Realm}

theorem HasExpr.node {e : Expr} (h : R.HasExpr e) : R.node e :=
  h e (Expr.mem_postorder.2 (.inl rfl))

theorem HasExpr.part {e part : Expr} (h : R.HasExpr e) (hpart : part ∈ e.parts) :
    R.HasExpr part :=
  fun d hd => h d (Expr.mem_postorder.2 (.inr ⟨part, hpart, hd⟩))

end Realm

/-- A value that is known and the second part of a list cell is a list. -/
def Thunk.IsTail : Thunk → Prop
  | .ready v => v.isList = true
  | _ => True

theorem Thunk.isTail_of_asTail {x c : Thunk} (h : x.asTail = .ok c) : c = x ∧ x.IsTail := by
  obtain ⟨hlist, rfl⟩ := Thunk.asTail_eq_ok.1 h
  cases c with
  | ready v => exact ⟨rfl, hlist v rfl⟩
  | byName | byNeed => exact ⟨rfl, trivial⟩

mutual
/-- The value is put together from the expressions of the realm. -/
def Value.Belongs (R : Realm) : Value → Prop
  | .int _ | .bool _ | .prim _ | .nil => True
  | .closure _ lambda ρ => R.HasExpr lambda.expr ∧ ρ.Belongs R
  | .cons _ x y => x.Belongs R ∧ y.Belongs R ∧ y.IsTail

/-- The thunk is a value of the realm, or delays an expression of the realm as its policy says. -/
def Thunk.Belongs (R : Realm) : Thunk → Prop
  | .ready v => v.Belongs R
  | .byName q => R.Delays .name ∧ q.Belongs R
  | .byNeed address q => R.Delays .need ∧ R.base ≤ address ∧ q.Belongs R

/-- The suspended expression and its environment are those of the realm. -/
def Suspension.Belongs (R : Realm) : Suspension → Prop
  | .mk setting ρ e => setting = R.setting ∧ R.HasExpr e ∧ ρ.Belongs R

/-- The environment binds names of the realm to thunks of the realm. -/
def Env.Belongs (R : Realm) : Env → Prop
  | .empty => True
  | .frame _ name x rest => R.name name ∧ x.Belongs R ∧ rest.Belongs R
end

/-- Both sides of the comparison belong to the realm. -/
def Comparison.Belongs (R : Realm) : Comparison → Prop
  | .values a b => a.Belongs R ∧ b.Belongs R
  | .tails x y => (x.Belongs R ∧ x.IsTail) ∧ y.Belongs R ∧ y.IsTail
  | .envs a b => a.Belongs R ∧ b.Belongs R

/-- The cells of the realm keep values of the realm. -/
structure Store.Belongs (R : Realm) (s : Store) : Prop where
  base_le : R.base ≤ s.cells.size
  kept : ∀ address v, R.base ≤ address → s.kept? address = some v → v.Belongs R

section

variable {R : Realm}

theorem Value.IsAtom.belongs {v : Value} (h : v.IsAtom) : v.Belongs R := by
  cases v with
  | int | bool | prim | nil => simp only [Value.Belongs]
  | closure | cons => exact h.elim

theorem Env.Belongs.lookup {name : Name} {x : Thunk} : {ρ : Env} → ρ.Belongs R →
    ρ.lookup name = some x → x.Belongs R
  | .empty, _, h => by simp [Env.lookup] at h
  | .frame tag bound thunk rest, hρ, h => by
      simp only [Env.Belongs] at hρ
      unfold Env.lookup at h
      split at h
      · cases h
        exact hρ.2.1
      · exact Env.Belongs.lookup hρ.2.2 h

theorem Store.extend_belongs (s : Store) {ρ : Env} (hρ : ρ.Belongs R)
    {bindings : List (Name × Thunk)} (hbindings : ∀ b ∈ bindings, R.name b.1 ∧ b.2.Belongs R) :
    (s.extend ρ bindings).1.Belongs R := by
  induction bindings with
  | nil => exact hρ
  | cons b bindings ih =>
      rw [List.forall_mem_cons] at hbindings
      simp only [Store.extend, Env.Belongs]
      exact ⟨hbindings.1.1, hbindings.1.2, ih hbindings.2⟩

theorem Store.Belongs.of_cells {s s' : Store} (h : s.Belongs R) (hcells : s'.cells = s.cells) :
    s'.Belongs R := by
  refine ⟨by rw [hcells]; exact h.base_le, fun address v haddress hv => ?_⟩
  rw [Store.kept?, hcells] at hv
  exact h.kept address v haddress hv

theorem Store.Belongs.allocate {s : Store} (h : s.Belongs R) : s.allocate.2.Belongs R := by
  refine ⟨?_, fun address v haddress hv => ?_⟩
  · rw [Store.size_allocate]
    exact Nat.le_succ_of_le h.base_le
  · rw [Store.kept?_allocate] at hv
    exact h.kept address v haddress hv

theorem Store.Belongs.keep {s : Store} (h : s.Belongs R) {v : Value} (hv : v.Belongs R)
    (address : Nat) : (s.keep address v).Belongs R := by
  refine ⟨by rw [Store.size_keep]; exact h.base_le, fun address' v' haddress hkept => ?_⟩
  by_cases hsize : address < s.cells.size
  · rw [Store.kept?_keep hsize] at hkept
    split at hkept
    · cases hkept
      exact hv
    · exact h.kept address' v' haddress hkept
  · have hsame : (s.keep address v).cells = s.cells := by
      simp only [Store.keep]
      exact Array.setIfInBounds_eq_of_size_le (Nat.le_of_not_lt hsize)
    rw [Store.kept?, hsame] at hkept
    exact h.kept address' v' haddress hkept

/-- Before anything is delayed, no cell belongs to the realm. -/
theorem Store.belongs_start {s : Store} (hbase : R.base = s.cells.size) : s.Belongs R := by
  refine ⟨Nat.le_of_eq hbase, fun address v haddress hv => ?_⟩
  rw [Store.kept?, Array.getElem?_eq_none (by omega)] at hv
  cases hv

end

/-! ## Plans that stay in a realm -/

/-- The five ways to count. -/
inductive Counters.IsStep : (Counters → Counters) → Prop
  | expression : IsStep countExpression
  | call : IsStep countCall
  | prim : IsStep countPrim
  | forced : IsStep countForced
  | cons : IsStep countCons

/-- All requests of the plan stay in the realm as long as their results do, and results have the
property `post`. -/
inductive Plan.Abides (R : Realm) {α : Type} (post : α → Prop) : Plan α → Prop
  | done {a : α} (h : post a) : Abides R post (.done a)
  | fail {cause : FaultCause} : Abides R post (.fail cause)
  | count {step : Counters → Counters} {p : Plan α} (hstep : Counters.IsStep step)
      (h : Abides R post p) : Abides R post (.count step p)
  | eval {ρ : Env} {e : Expr} {next : Value → Plan α} (henv : ρ.Belongs R) (hexpr : R.HasExpr e)
      (hnext : ∀ v, v.Belongs R → Abides R post (next v)) :
      Abides R post (.eval R.setting ρ e next)
  | force {x : Thunk} {next : Value → Plan α} (hthunk : x.Belongs R)
      (hnext : ∀ v, v.Belongs R → Abides R post (next v)) : Abides R post (.force x next)
  | delay {d : Discipline} {ρ : Env} {e : Expr} {next : Thunk → Plan α} (hdelays : R.Delays d)
      (henv : ρ.Belongs R) (hexpr : R.HasExpr e)
      (hnext : ∀ x, x.Belongs R → Abides R post (next x)) :
      Abides R post (.delay d R.setting ρ e next)
  | cell {x y : Thunk} {next : Value → Plan α} (hhead : x.Belongs R) (htail : y.Belongs R)
      (hlist : y.IsTail) (hnext : ∀ v, v.Belongs R → Abides R post (next v)) :
      Abides R post (.cell x y next)
  | closure {lambda : Lambda} {ρ : Env} {next : Value → Plan α} (hexpr : R.HasExpr lambda.expr)
      (henv : ρ.Belongs R) (hnext : ∀ v, v.Belongs R → Abides R post (next v)) :
      Abides R post (.closure lambda ρ next)
  | extend {ρ : Env} {bindings : List (Name × Thunk)} {next : Env → Plan α} (henv : ρ.Belongs R)
      (hbindings : ∀ b ∈ bindings, R.name b.1 ∧ b.2.Belongs R)
      (hnext : ∀ ρ', ρ'.Belongs R → Abides R post (next ρ')) :
      Abides R post (.extend ρ bindings next)
  | compare {todo : List Comparison} {next : Bool → Plan α} (hcompares : R.Compares)
      (htodo : ∀ c ∈ todo, c.Belongs R) (hnext : ∀ b, Abides R post (next b)) :
      Abides R post (.compare todo next)

namespace Plan.Abides

variable {R : Realm} {α β : Type} {post : α → Prop}

theorem lift {result : Except FaultCause β} {next : β → Plan α}
    (h : ∀ b, result = .ok b → Abides R post (next b)) :
    Abides R post (Plan.lift result next) := by
  cases result with
  | ok b => exact h b rfl
  | error cause => exact .fail

/-- The second part of a list cell is a list. -/
theorem tail {v : Value} {next : Value → Plan α}
    (h : v.isList = true → Abides R post (next v)) : Abides R post (.lift (asTail v) next) := by
  refine lift fun c hc => ?_
  obtain ⟨hlist, rfl⟩ := asTail_eq_ok.1 hc
  exact h hlist

end Plan.Abides

namespace Realm

variable {R : Realm} {α : Type} {post : α → Prop}

theorem delays_abides {ρ : Env} (henv : ρ.Belongs R) {bindings : List (Name × Expr)}
    (hbindings : ∀ b ∈ bindings, R.name b.1 ∧ R.HasExpr b.2)
    {next : List (Name × Thunk) → Plan α}
    (hnext : ∀ bs : List (Name × Thunk), (∀ b ∈ bs, R.name b.1 ∧ b.2.Belongs R) →
      (next bs).Abides R post) :
    (Plan.delays R.setting ρ bindings next).Abides R post := by
  induction bindings generalizing next with
  | nil => exact hnext [] (by simp)
  | cons b bindings ih =>
      rw [List.forall_mem_cons] at hbindings
      refine .delay (.inl rfl) henv hbindings.1.2 fun x hx => ih hbindings.2 fun bs hbs => ?_
      exact hnext _ (List.forall_mem_cons.2 ⟨⟨hbindings.1.1, hx⟩, hbs⟩)

theorem binding_abides {ρ outer : Env} (henv : ρ.Belongs R) (houter : outer.Belongs R)
    {bindings : List (Name × Expr)} (hbindings : ∀ b ∈ bindings, R.name b.1 ∧ R.HasExpr b.2)
    {body : Expr} (hbody : R.HasExpr body) :
    (bindingPlan R.setting ρ outer bindings body).Abides R (Value.Belongs R) := by
  refine delays_abides henv hbindings fun bs hbs => ?_
  exact .extend houter hbs fun ρ' hρ' => .eval hρ' hbody fun v hv => .done hv

theorem cons_abides {ρ : Env} (henv : ρ.Belongs R) {head tail : Expr} (hhead : R.HasExpr head)
    (htail : R.HasExpr tail) :
    (consPlan R.setting ρ head tail).Abides R (Value.Belongs R) := by
  refine .delay (.inr rfl) henv hhead fun x hx => .delay (.inr rfl) henv htail fun y hy => ?_
  refine .lift fun c hc => .count .cons ?_
  obtain ⟨rfl, hlist⟩ := Thunk.isTail_of_asTail hc
  exact .cell hx hy hlist fun v hv => .done hv

theorem scalar_abides {result : Except FaultCause Value} (hplain : IsPlain result) :
    (Plan.lift result .done).Abides R (Value.Belongs R) := by
  refine .lift fun v hv => .done ?_
  rw [hv] at hplain
  exact (Value.IsScalar.isAtom hplain).belongs

theorem prim_abides {v : Value} (hv : v.Belongs R) (p : Prim) :
    (p.plan v).Abides R (Value.Belongs R) := by
  cases hinspect : p.inspect v with
  | some result =>
      simp only [Prim.plan, hinspect]
      exact scalar_abides (Prim.inspect_plain hinspect)
  | none =>
      obtain ⟨tag, head, tail, rfl, -⟩ := Prim.inspect_eq_none hinspect
      simp only [Value.Belongs] at hv
      simp only [Prim.plan, hinspect]
      split
      · exact .force hv.1 fun v hv => .done hv
      · exact .force hv.2.1 fun v hv => .tail fun _ => .done hv

theorem call_abides {ρ : Env} (henv : ρ.Belongs R) {v : Value} (hv : v.Belongs R)
    {args : List Expr} (hargs : ∀ arg ∈ args, R.HasExpr arg) :
    (callPlan R.setting ρ v args).Abides R (Value.Belongs R) := by
  cases v with
  | int | bool | nil | cons => exact .fail
  | closure tag lambda captured =>
      simp only [Value.Belongs] at hv
      simp only [callPlan]
      split
      · refine .count .call (binding_abides henv hv.2 ?_ (hv.1.part (by simp [Lambda.expr,
          Expr.parts])))
        rintro ⟨name, arg⟩ hb
        obtain ⟨hname, harg⟩ := List.of_mem_zip hb
        obtain ⟨binder, hbinder, rfl⟩ := List.mem_map.1 hname
        exact ⟨R.map_names hv.1.node binder hbinder, hargs arg harg⟩
      · exact .fail
  | prim p =>
      refine .count .prim ?_
      split
      · split
        · exact cons_abides henv (hargs _ (by simp)) (hargs _ (by simp))
        · exact .eval henv (hargs _ (by simp)) fun v hv => prim_abides hv p
        · exact .fail
      · exact .fail

theorem binary_abides {a b : Value} (ha : a.Belongs R) (hb : b.Belongs R) {op : BinaryOp}
    (hcompares : op = .eq ∨ op = .ne → R.Compares) :
    (op.plan a b).Abides R (Value.Belongs R) := by
  unfold BinaryOp.plan
  cases hresult : strictBinary op a b with
  | some result => exact scalar_abides (strictBinary_plain hresult)
  | none =>
      have hop : op = .eq ∨ op = .ne := by
        cases op <;> simp [strictBinary] at hresult ⊢
      refine .compare (hcompares hop) ?_ fun b => .done (Value.IsAtom.belongs trivial)
      simpa [Comparison.Belongs] using ⟨ha, hb⟩

/-- In an environment of the realm, an expression of the realm asks for nothing outside of it. -/
theorem plan_abides {ρ : Env} (henv : ρ.Belongs R) {e : Expr} (he : R.HasExpr e) :
    (e.plan R.setting ρ).Abides R (Value.Belongs R) := by
  have hpart := fun {part : Expr} (h : part ∈ e.parts) => he.part h
  -- Whatever the plan evaluates is a part of the expression, and so of the program.
  cases e with
  | int | bool | null | prim => exact .done (Value.IsAtom.belongs trivial)
  | map => exact .closure he henv fun v hv => .done hv
  | ident place name =>
      simp only [Expr.plan]
      cases hlookup : ρ.lookup name with
      | none => exact .fail
      | some x => exact .force (henv.lookup hlookup) fun v hv => .done hv
  | unary place op operand =>
      exact .eval henv (hpart (by simp [Expr.parts])) fun v _ => scalar_abides (applyUnary_plain op v)
  | binary place op left right =>
      refine .eval henv (hpart (by simp [Expr.parts])) fun a ha => ?_
      cases op.decisive? with
      | none =>
          refine .eval henv (hpart (by simp [Expr.parts])) fun b hb => binary_abides ha hb ?_
          exact fun hop => ⟨place, op, left, right, hop, he.node⟩
      | some decisive =>
          refine .lift fun x _ => ?_
          split
          · exact .done (Value.IsAtom.belongs trivial)
          · refine .eval henv (hpart (by simp [Expr.parts])) fun b _ => .lift fun y _ => ?_
            exact .done (Value.IsAtom.belongs trivial)
  | call place callee args =>
      refine .eval henv (hpart (by simp [Expr.parts])) fun v hv => call_abides henv hv ?_
      exact fun arg harg => hpart (List.mem_cons_of_mem callee harg)
  | cond place test yes no =>
      refine .eval henv (hpart (by simp [Expr.parts])) fun v _ => .lift fun b _ => ?_
      exact .eval henv (hpart (by cases b <;> simp [Expr.parts])) fun v hv => .done hv
  | letIn place defs body =>
      refine binding_abides henv henv ?_ (hpart (by simp [Expr.parts]))
      intro b hb
      obtain ⟨d, hd, rfl⟩ := List.mem_map.1 hb
      exact ⟨R.letIn_names he.node d hd,
        hpart (List.mem_append_left _ (List.mem_map_of_mem hd))⟩

/-! ## Renderings and programs -/

theorem spine_abides {item : Value → (String → Plan String) → Plan String}
    {post : String → Prop}
    (hitem : ∀ v, v.Belongs R → ∀ next : String → Plan String,
      (∀ text, (next text).Abides R post) → (item v next).Abides R post)
    (left : Nat) (isFirst : Bool) (out : String) {v : Value} (hv : v.Belongs R)
    {next : String → Plan String} (hnext : ∀ text, (next text).Abides R post) :
    (spinePlan item isFirst out left v next).Abides R post := by
  induction left generalizing isFirst out v with
  | zero => cases v <;> exact hnext _
  | succ left ih =>
      cases v with
      | int | bool | prim | closure | nil => exact hnext _
      | cons tag head tail =>
          simp only [Value.Belongs] at hv
          refine .force hv.1 fun x hx => hitem x hx _ fun element => ?_
          exact .force hv.2.1 fun rest hrest => .tail fun _ => ih false _ hrest

theorem render_abides {post : String → Prop} (printDepth room : Nat) {v : Value}
    (hv : v.Belongs R) {next : String → Plan String} (hnext : ∀ text, (next text).Abides R post) :
    (renderPlan printDepth room v next).Abides R post := by
  induction room generalizing v next with
  | zero =>
      cases v with
      | bool b => cases b <;> exact hnext _
      | int | prim | closure | nil | cons => exact hnext _
  | succ room ih =>
      cases v with
      | bool b => cases b <;> exact hnext _
      | int | prim | closure => exact hnext _
      | nil | cons =>
          exact spine_abides (fun v hv next hnext => ih hv hnext) printDepth true "(" hv hnext

/-- Evaluating a program of the realm and rendering its value asks for nothing outside of it. -/
theorem program_abides (printDepth : Nat) {root : Expr} (hroot : R.HasExpr root) :
    (programPlan ⟨R.setting, printDepth⟩ root).Abides R fun _ => True := by
  refine .eval (by simp only [Env.Belongs]) hroot fun v hv => ?_
  exact render_abides printDepth printDepth hv fun text => .done trivial

end Realm

end PolicyEval
