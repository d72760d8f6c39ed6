import Mathlib.Data.List.Forall2
import PolicyEval.Proofs.Eval.Plan

/-!
# Related evaluations

Two evaluations are compared by relating what they deal with: values, thunks and environments.  A
kinship is such a relation.  It is taken in worlds that only grow, since what is made on the way may
add to what is known.  Whatever the kinship, expressions do not tell its two sides apart: in related
environments they make related requests as long as they are given related results.

* `Kinship` — a relation that shows in the outermost layers.
* `Plan.Related` — two plans that make related requests.
* `Kinship.plan_related` — the plans of one expression in related environments are related.
* `Kinship.step_related`, `Kinship.render_related` — so are the plans of comparisons and renderings.
-/

namespace PolicyEval

/-- The values without parts. -/
def Value.IsAtom : Value → Prop
  | .int _ | .bool _ | .prim _ | .nil => True
  | _ => False

theorem Value.IsScalar.isAtom {v : Value} (h : v.IsScalar) : v.IsAtom := by
  cases v <;> trivial

section

variable {a b : Value}

theorem Value.meet_self_of_isAtom (h : a.IsAtom) : a.meet a = .equal := by
  cases a with
  | int | bool | prim => exact if_pos rfl
  | nil => rfl
  | closure | cons => exact h.elim

/-- Values without parts settle a comparison. -/
theorem Value.meet_of_isAtom (ha : a.IsAtom) (hb : b.IsAtom) :
    a.meet b = .equal ∨ a.meet b = .unequal := by
  cases a <;> cases b <;> simp_all only [IsAtom, meet] <;> grind

/-- No step makes a value without parts. -/
theorem Value.identical_of_isAtom (h : a.IsAtom ∨ b.IsAtom) : a.identical b = false := by
  cases a <;> cases b <;> simp_all [IsAtom, identical]

end

/-- Two values with the same outermost layer and related parts. -/
inductive Value.SameLayer (thunk : Thunk → Thunk → Prop) (env : Env → Env → Prop) :
    Value → Value → Prop
  | atom {v : Value} (h : v.IsAtom) : SameLayer thunk env v v
  | closure {tag tag' : Nat} {lambda : Lambda} {captured captured' : Env}
      (h : env captured captured') :
      SameLayer thunk env (.closure tag lambda captured) (.closure tag' lambda captured')
  | cons {tag tag' : Nat} {head head' tail tail' : Thunk} (hhead : thunk head head')
      (htail : thunk tail tail') :
      SameLayer thunk env (.cons tag head tail) (.cons tag' head' tail')

/-- Two environments with the same outermost name and related parts. -/
inductive Env.SameLayer (thunk : Thunk → Thunk → Prop) (env : Env → Env → Prop) : Env → Env → Prop
  | empty : SameLayer thunk env .empty .empty
  | frame {tag tag' : Nat} {name : Name} {bound bound' : Thunk} {rest rest' : Env}
      (hbound : thunk bound bound') (hrest : env rest rest') :
      SameLayer thunk env (.frame tag name bound rest) (.frame tag' name bound' rest')

/-- Two values made by the same step, or one and the same value without parts. -/
inductive Value.SameTag : Value → Value → Prop
  | atom {v : Value} (h : v.IsAtom) : SameTag v v
  | closure {tag : Nat} {lambda : Lambda} {captured captured' : Env} :
      SameTag (.closure tag lambda captured) (.closure tag lambda captured')
  | cons {tag : Nat} {head head' tail tail' : Thunk} :
      SameTag (.cons tag head tail) (.cons tag head' tail')

/-- Two environments whose outermost frames were made by the same step. -/
inductive Env.SameTag : Env → Env → Prop
  | empty : SameTag .empty .empty
  | frame {tag : Nat} {name : Name} {bound bound' : Thunk} {rest rest' : Env} :
      SameTag (.frame tag name bound rest) (.frame tag name bound' rest')

/-- Two comparisons of the same kind with related sides.  Second parts are those of related list
cells, so that what is known of the cells is not lost. -/
inductive Comparison.SameKind (value : Value → Value → Prop) (env : Env → Env → Prop) :
    Comparison → Comparison → Prop
  | values {a b a' b' : Value} (hleft : value a a') (hright : value b b') :
      SameKind value env (.values a b) (.values a' b')
  | tails {t t' u u' : Nat} {x x' y y' z z' w w' : Thunk}
      (hleft : value (.cons t z x) (.cons t' z' x'))
      (hright : value (.cons u w y) (.cons u' w' y')) :
      SameKind value env (.tails x y) (.tails x' y')
  | envs {a b a' b' : Env} (hleft : env a a') (hright : env b b') :
      SameKind value env (.envs a b) (.envs a' b')

theorem Comparison.SameKind.mono {value value' : Value → Value → Prop} {env env' : Env → Env → Prop}
    (hvalue : ∀ {v w}, value v w → value' v w) (henv : ∀ {a b}, env a b → env' a b)
    {c c' : Comparison} (h : c.SameKind value env c') : c.SameKind value' env' c' := by
  cases h with
  | values hleft hright => exact .values (hvalue hleft) (hvalue hright)
  | tails hleft hright => exact .tails (hvalue hleft) (hvalue hright)
  | envs hleft hright => exact .envs (henv hleft) (henv hright)

/-- Data with the same tags agree on what is one and the same. -/
theorem Comparison.SameKind.identical_eq {c c' : Comparison}
    (h : c.SameKind Value.SameTag Env.SameTag c') : c.identical = c'.identical := by
  cases h with
  | tails => rfl
  | values ha hb =>
      simp only [Comparison.identical]
      cases ha with
      | atom ha => rw [Value.identical_of_isAtom (.inl ha), Value.identical_of_isAtom (.inl ha)]
      | closure | cons =>
          cases hb with
          | atom hb => rw [Value.identical_of_isAtom (.inr hb), Value.identical_of_isAtom (.inr hb)]
          | closure | cons => rfl
  | envs ha hb => cases ha <;> cases hb <;> rfl

/-- Two meetings that say the same and leave related things to be compared. -/
inductive Meeting.SameKind (thunk : Thunk → Thunk → Prop) (value : Value → Value → Prop)
    (env : Env → Env → Prop) : Meeting → Meeting → Prop
  | equal : SameKind thunk value env .equal .equal
  | unequal : SameKind thunk value env .unequal .unequal
  | envs {a b a' b' : Env} (hleft : env a a') (hright : env b b') :
      SameKind thunk value env (.envs a b) (.envs a' b')
  | parts {x y x' y' : Thunk} {c c' : Comparison} (hx : thunk x x') (hy : thunk y y')
      (hc : c.SameKind value env c') : SameKind thunk value env (.parts x y c) (.parts x' y' c')

section

variable {thunk : Thunk → Thunk → Prop} {value : Value → Value → Prop} {env : Env → Env → Prop}

/-- Values that are related layer by layer meet in the same way. -/
theorem Value.meet_sameKind (hlayer : ∀ {v w}, value v w → v.SameLayer thunk env w)
    {a b a' b' : Value} (ha : value a a') (hb : value b b') :
    Meeting.SameKind thunk value env (a.meet b) (a'.meet b') := by
  -- How two values meet depends on their outermost layers only.
  cases hlayer ha with
  | atom hatom =>
      cases hlayer hb with
      | atom hatom' =>
          rcases Value.meet_of_isAtom hatom hatom' with h | h <;> rw [h]
          · exact .equal
          · exact .unequal
      | closure | cons =>
          cases a with
          | closure | cons => exact hatom.elim
          | _ => exact .unequal
  | closure hcaptured =>
      cases hlayer hb with
      | atom hatom =>
          cases b with
          | closure | cons => exact hatom.elim
          | _ => exact .unequal
      | cons => exact .unequal
      | closure hcaptured' =>
          simp only [Value.meet]
          split
          · exact .envs hcaptured hcaptured'
          · exact .unequal
  | cons hhead htail =>
      cases hlayer hb with
      | atom hatom =>
          cases b with
          | closure | cons => exact hatom.elim
          | _ => exact .unequal
      | closure => exact .unequal
      | cons hhead' htail' => exact .parts hhead hhead' (.tails ha hb)

/-- Environments that are related frame by frame meet in the same way. -/
theorem Env.meet_sameKind (hlayer : ∀ {a b}, env a b → a.SameLayer thunk env b)
    {a b a' b' : Env} (ha : env a a') (hb : env b b') :
    Meeting.SameKind thunk value env (a.meet b) (a'.meet b') := by
  cases hlayer ha with
  | empty =>
      cases hlayer hb with
      | empty => exact .equal
      | frame => exact .unequal
  | frame hbound hrest =>
      cases hlayer hb with
      | empty => exact .unequal
      | frame hbound' hrest' =>
          simp only [Env.meet]
          split
          · exact .parts hbound hbound' (.envs hrest hrest')
          · exact .unequal

end

/-- A relation between the data of two evaluations under the settings `left` and `right`, in worlds
that only grow.  A strict one also sees how the left one fails. -/
structure Kinship where
  World : Type
  le : World → World → Prop
  left : Setting
  right : Setting
  strict : Prop
  value : World → Value → Value → Prop
  thunk : World → Thunk → Thunk → Prop
  env : World → Env → Env → Prop
  todo : World → List Comparison → List Comparison → Prop
  refl : ∀ W, le W W
  trans : ∀ {W W' W''}, le W W' → le W' W'' → le W W''
  value_mono : ∀ {W W' v w}, le W W' → value W v w → value W' v w
  thunk_mono : ∀ {W W' x y}, le W W' → thunk W x y → thunk W' x y
  env_mono : ∀ {W W' a b}, le W W' → env W a b → env W' a b
  todo_mono : ∀ {W W' t t'}, le W W' → todo W t t' → todo W' t t'
  atom : ∀ {W v}, v.IsAtom → value W v v
  empty : ∀ {W}, env W .empty .empty
  value_layer : ∀ {W v w}, value W v w → v.SameLayer (thunk W) (env W) w
  env_layer : ∀ {W a b}, env W a b → a.SameLayer (thunk W) (env W) b
  ready : ∀ {W x w}, thunk W x (.ready w) → ∃ v, x = .ready v ∧ value W v w
  ready_strict : strict → ∀ {W v y}, thunk W (.ready v) y → ∃ w, y = .ready w
  todo_nil : ∀ {W}, todo W [] []
  todo_cons : ∀ {W} {c c' : Comparison} {t t'}, c.SameKind (value W) (env W) c' →
    todo W t t' → todo W (c :: t) (c' :: t')

namespace Kinship

variable {K : Kinship} {W : K.World}

/-- Two comparisons of the same kind with related sides, in a world. -/
abbrev Comparable (K : Kinship) (W : K.World) : Comparison → Comparison → Prop :=
  Comparison.SameKind (K.value W) (K.env W)

/-- Two meetings that say the same, in a world. -/
abbrev Meets (K : Kinship) (W : K.World) : Meeting → Meeting → Prop :=
  Meeting.SameKind (K.thunk W) (K.value W) (K.env W)

/-- Bindings of the same names to related thunks. -/
def Bindings (K : Kinship) (W : K.World) : List (Name × Thunk) → List (Name × Thunk) → Prop :=
  List.Forall₂ fun b b' => b.1 = b'.1 ∧ K.thunk W b.2 b'.2

theorem lookup {ρ ρ' : Env} (h : K.env W ρ ρ') (name : Name) :
    (ρ.lookup name = none ∧ ρ'.lookup name = none) ∨
      ∃ x x', ρ.lookup name = some x ∧ ρ'.lookup name = some x' ∧ K.thunk W x x' := by
  match ρ, ρ', K.env_layer h with
  | _, _, .empty => exact .inl ⟨rfl, rfl⟩
  | .frame _ bound x rest, .frame _ _ x' rest', .frame hbound hrest =>
      unfold Env.lookup
      by_cases hname : bound.same name = true
      · simp only [hname, if_true]
        exact .inr ⟨x, x', rfl, rfl, hbound⟩
      · simp only [hname]
        exact lookup hrest name

end Kinship

/-! ## Related plans -/

/-- The first plan fails, or both make related requests and yield related results.  Requests are
related in a world, what is done with their results in every later one.  In a strict kinship the
second plan fails if the first one does, for the same cause. -/
inductive Plan.Related (K : Kinship) {α β : Type} (post : K.World → α → β → Prop) :
    K.World → Plan α → Plan β → Prop
  | done {W : K.World} {a : α} {b : β} (h : post W a b) : Related K post W (.done a) (.done b)
  | fail {W : K.World} {cause : FaultCause} {q : Plan β} (h : K.strict → q = .fail cause) :
      Related K post W (.fail cause) q
  | count {W : K.World} {step : Counters → Counters} {p : Plan α} {q : Plan β}
      (h : Related K post W p q) : Related K post W (.count step p) (.count step q)
  | eval {W : K.World} {ρ ρ' : Env} {e : Expr} {next : Value → Plan α} {next' : Value → Plan β}
      (henv : K.env W ρ ρ')
      (hnext : ∀ W', K.le W W' → ∀ v w, K.value W' v w → Related K post W' (next v) (next' w)) :
      Related K post W (.eval K.left ρ e next) (.eval K.right ρ' e next')
  | force {W : K.World} {x x' : Thunk} {next : Value → Plan α} {next' : Value → Plan β}
      (hthunk : K.thunk W x x')
      (hnext : ∀ W', K.le W W' → ∀ v w, K.value W' v w → Related K post W' (next v) (next' w)) :
      Related K post W (.force x next) (.force x' next')
  | delay {W : K.World} {axis : Policy → Discipline} {ρ ρ' : Env} {e : Expr}
      {next : Thunk → Plan α} {next' : Thunk → Plan β}
      (haxis : axis = Policy.args ∨ axis = Policy.lists) (henv : K.env W ρ ρ')
      (hnext : ∀ W', K.le W W' → ∀ x x', K.thunk W' x x' → Related K post W' (next x) (next' x')) :
      Related K post W (.delay (axis K.left.policy) K.left ρ e next)
        (.delay (axis K.right.policy) K.right ρ' e next')
  | cell {W : K.World} {x x' y y' : Thunk} {next : Value → Plan α} {next' : Value → Plan β}
      (hhead : K.thunk W x x') (htail : K.thunk W y y')
      (hlist : ∀ v, y = .ready v → v.isList = true)
      (hnext : ∀ W', K.le W W' → ∀ v w, K.value W' v w → Related K post W' (next v) (next' w)) :
      Related K post W (.cell x y next) (.cell x' y' next')
  | closure {W : K.World} {lambda : Lambda} {ρ ρ' : Env} {next : Value → Plan α}
      {next' : Value → Plan β} (henv : K.env W ρ ρ')
      (hnext : ∀ W', K.le W W' → ∀ v w, K.value W' v w → Related K post W' (next v) (next' w)) :
      Related K post W (.closure lambda ρ next) (.closure lambda ρ' next')
  | extend {W : K.World} {ρ ρ' : Env} {bs bs' : List (Name × Thunk)} {next : Env → Plan α}
      {next' : Env → Plan β} (henv : K.env W ρ ρ') (hbs : K.Bindings W bs bs')
      (hnext : ∀ W', K.le W W' → ∀ a b, K.env W' a b → Related K post W' (next a) (next' b)) :
      Related K post W (.extend ρ bs next) (.extend ρ' bs' next')
  | compare {W : K.World} {todo todo' : List Comparison} {next : Bool → Plan α}
      {next' : Bool → Plan β} (htodo : K.todo W todo todo')
      (hnext : ∀ W', K.le W W' → ∀ b, Related K post W' (next b) (next' b)) :
      Related K post W (.compare todo next) (.compare todo' next')

namespace Plan.Related

variable {K : Kinship} {W : K.World} {α β γ δ : Type} {post : K.World → α → β → Prop}

/-- Operations without requests are related if success on the left is success on the right, and, in
a strict kinship, failure on the left the same failure on the right. -/
theorem lift {result : Except FaultCause γ} {result' : Except FaultCause δ} {next : γ → Plan α}
    {next' : δ → Plan β}
    (h : ∀ c, result = .ok c → ∃ d, result' = .ok d ∧ Related K post W (next c) (next' d))
    (herror : K.strict → ∀ cause, result = .error cause → result' = .error cause) :
    Related K post W (Plan.lift result next) (Plan.lift result' next') := by
  cases hresult : result with
  | error cause =>
      refine .fail fun hstrict => ?_
      rw [herror hstrict cause hresult]
      rfl
  | ok c =>
      obtain ⟨d, hd, hrel⟩ := h c hresult
      rw [hd]
      exact hrel

/-- One operation without requests, applied to the same outermost layers on both sides. -/
theorem lift_same {result result' : Except FaultCause γ} {next : γ → Plan α} {next' : γ → Plan β}
    (hsame : result' = result)
    (h : ∀ c, result = .ok c → Related K post W (next c) (next' c)) :
    Related K post W (Plan.lift result next) (Plan.lift result' next') :=
  lift (fun c hc => ⟨c, hsame.trans hc, h c hc⟩) fun _ _ hcause => hsame.trans hcause

/-- What is related to a request for a thunk is such a request, on the same axis of the policies. -/
theorem delay_inv {d : Discipline} {setting : Setting} {ρ : Env} {e : Expr}
    {next : Thunk → Plan α} {q : Plan β}
    (h : Related K post W (.delay d setting ρ e next) q) :
    ∃ (axis : Policy → Discipline) (ρ' : Env) (next' : Thunk → Plan β),
      (axis = Policy.args ∨ axis = Policy.lists) ∧ d = axis K.left.policy ∧ setting = K.left ∧
        K.env W ρ ρ' ∧ q = .delay (axis K.right.policy) K.right ρ' e next' ∧
          ∀ W', K.le W W' → ∀ x x', K.thunk W' x x' → Related K post W' (next x) (next' x') := by
  generalize hp : Plan.delay d setting ρ e next = p at h
  cases h <;> cases hp
  case delay axis ρ' next' haxis henv hnext =>
    exact ⟨axis, ρ', next', haxis, rfl, rfl, henv, rfl, hnext⟩

end Plan.Related

/-! ## Operations see the outermost layer only -/

namespace Value.SameLayer

variable {thunk : Thunk → Thunk → Prop} {env : Env → Env → Prop} {v w : Value}

theorem tails {t t' : Nat} {x x' y y' : Thunk}
    (h : (Value.cons t x y).SameLayer thunk env (.cons t' x' y')) : thunk y y' := by
  cases h with
  | atom hatom => exact hatom.elim
  | cons _ htail => exact htail

theorem describe_eq (h : v.SameLayer thunk env w) : w.describe = v.describe := by
  cases h <;> rfl

theorem isList_eq (h : v.SameLayer thunk env w) : w.isList = v.isList :=
  Value.isList_congr h.describe_eq

end Value.SameLayer

/-! ## Second parts of list cells -/

theorem asTail_eq_ok {v c : Value} : asTail v = .ok c ↔ v.isList = true ∧ c = v := by
  unfold asTail
  split
  · next h => simp [h, eq_comm]
  · next h => simp [h]

theorem Value.SameLayer.asTail_eq_error {thunk : Thunk → Thunk → Prop} {env : Env → Env → Prop}
    {v w : Value} (h : v.SameLayer thunk env w) {cause : FaultCause}
    (hv : PolicyEval.asTail v = .error cause) : PolicyEval.asTail w = .error cause := by
  unfold PolicyEval.asTail at hv ⊢
  rw [h.isList_eq, h.describe_eq]
  split at hv
  · cases hv
  · next hlist => rw [if_neg hlist, hv]

theorem Thunk.asTail_eq_ok {x c : Thunk} :
    x.asTail = .ok c ↔ (∀ v, x = .ready v → v.isList = true) ∧ c = x := by
  cases x with
  | byName s | byNeed address s =>
      refine ⟨fun h => ⟨?_, (Except.ok.inj h).symm⟩, fun h => by rw [h.2]; rfl⟩
      rintro v ⟨⟩
  | ready v =>
      simp only [Thunk.asTail, PolicyEval.asTail]
      by_cases hlist : v.isList = true
      · rw [if_pos hlist]
        refine ⟨fun h => ⟨?_, (Except.ok.inj h).symm⟩, fun h => by rw [h.2]; rfl⟩
        rintro u ⟨rfl⟩
        exact hlist
      · rw [if_neg hlist]
        refine ⟨?_, fun h => absurd (h.1 v rfl) hlist⟩
        rintro ⟨⟩

namespace Kinship

variable {K : Kinship} {W : K.World} {α β : Type} {post : K.World → α → β → Prop}

theorem tail_related {v w : Value} (h : K.value W v w) {next : Value → Plan α}
    {next' : Value → Plan β} (hnext : Plan.Related K post W (next v) (next' w)) :
    Plan.Related K post W (.lift (asTail v) next) (.lift (asTail w) next') := by
  have hlayer := K.value_layer h
  refine .lift (fun c hc => ?_) fun _ cause hcause => ?_
  · obtain ⟨hlist, rfl⟩ := asTail_eq_ok.1 hc
    exact ⟨w, asTail_eq_ok.2 ⟨hlayer.isList_eq.trans hlist, rfl⟩, hnext⟩
  · exact hlayer.asTail_eq_error hcause

theorem thunkTail_related {x y : Thunk} (h : K.thunk W x y) {next : Thunk → Plan α}
    {next' : Thunk → Plan β}
    (hnext : (∀ v, x = .ready v → v.isList = true) → Plan.Related K post W (next x) (next' y)) :
    Plan.Related K post W (.lift x.asTail next) (.lift y.asTail next') := by
  refine .lift (fun c hc => ?_) fun hstrict cause hcause => ?_
  · obtain ⟨hlist, rfl⟩ := Thunk.asTail_eq_ok.1 hc
    refine ⟨y, Thunk.asTail_eq_ok.2 ⟨?_, rfl⟩, hnext hlist⟩
    rintro w rfl
    obtain ⟨v, rfl, hv⟩ := K.ready h
    exact (K.value_layer hv).isList_eq.trans (hlist v rfl)
  · cases x with
    | byName | byNeed => cases hcause
    | ready v =>
        obtain ⟨w, rfl⟩ := K.ready_strict hstrict h
        obtain ⟨v, hsame, hv⟩ := K.ready h
        cases hsame
        cases hasTail : asTail v with
        | ok u => simp only [Thunk.asTail, hasTail, Except.map, reduceCtorEq] at hcause
        | error cause' =>
            simp only [Thunk.asTail, hasTail, Except.map] at hcause
            simp only [Thunk.asTail, (K.value_layer hv).asTail_eq_error hasTail, Except.map]
            exact hcause

/-! ## The plans of one expression in related environments -/

theorem scalar_related {result : Except FaultCause Value} (hplain : IsPlain result) :
    Plan.Related K K.value W (.lift result .done) (.lift result .done) := by
  refine .lift_same rfl fun v hv => .done (K.atom ?_)
  rw [hv] at hplain
  exact Value.IsScalar.isAtom hplain

theorem delays_related {ρ ρ' : Env} (henv : K.env W ρ ρ') (bindings : List (Name × Expr))
    {next : List (Name × Thunk) → Plan α} {next' : List (Name × Thunk) → Plan β}
    (hnext : ∀ W', K.le W W' → ∀ bs bs', K.Bindings W' bs bs' →
      Plan.Related K post W' (next bs) (next' bs')) :
    Plan.Related K post W (.delays K.left ρ bindings next) (.delays K.right ρ' bindings next') := by
  induction bindings generalizing W next next' with
  | nil => exact hnext W (K.refl W) [] [] .nil
  | cons binding rest ih =>
      obtain ⟨name, e⟩ := binding
      refine .delay (.inl rfl) henv fun W₁ h₁ x x' hx => ?_
      refine ih (K.env_mono h₁ henv) fun W₂ h₂ bs bs' hbs => ?_
      exact hnext W₂ (K.trans h₁ h₂) _ _ (.cons ⟨rfl, K.thunk_mono h₂ hx⟩ hbs)

theorem eval_related {ρ ρ' : Env} (henv : K.env W ρ ρ') (e : Expr) :
    Plan.Related K K.value W (.eval K.left ρ e .done) (.eval K.right ρ' e .done) :=
  .eval henv fun _ _ _ _ hv => .done hv

theorem binding_related {ρ ρ' outer outer' : Env} (henv : K.env W ρ ρ')
    (houter : K.env W outer outer') (bindings : List (Name × Expr)) (body : Expr) :
    Plan.Related K K.value W (bindingPlan K.left ρ outer bindings body)
      (bindingPlan K.right ρ' outer' bindings body) := by
  refine delays_related henv bindings fun W₁ h₁ bs bs' hbs => ?_
  refine .extend (K.env_mono h₁ houter) hbs fun W₂ _ a b hab => ?_
  exact eval_related hab body

theorem cons_related {ρ ρ' : Env} (henv : K.env W ρ ρ') (head tail : Expr) :
    Plan.Related K K.value W (consPlan K.left ρ head tail) (consPlan K.right ρ' head tail) := by
  refine .delay (.inr rfl) henv fun W₁ h₁ x x' hx => ?_
  refine .delay (.inr rfl) (K.env_mono h₁ henv) fun W₂ h₂ y y' hy => ?_
  refine thunkTail_related hy fun hlist => .count ?_
  exact .cell (K.thunk_mono h₂ hx) hy hlist fun _ _ _ _ hv => .done hv

theorem prim_related {v w : Value} (h : K.value W v w) (p : Prim) :
    Plan.Related K K.value W (p.plan v) (p.plan w) := by
  have hinspect := Prim.inspect_congr (K.value_layer h).describe_eq p
  cases hleft : p.inspect v with
  | some result =>
      rw [hleft] at hinspect
      simp only [Prim.plan, hleft, hinspect]
      exact scalar_related (Prim.inspect_plain hleft)
  | none =>
      rw [hleft] at hinspect
      obtain ⟨tag, head, tail, rfl, -⟩ := Prim.inspect_eq_none hleft
      cases K.value_layer h with
      | atom hatom => exact hatom.elim
      | cons hhead htail =>
          simp only [Prim.plan, hleft, hinspect]
          split
          · exact .force hhead fun _ _ _ _ hv => .done hv
          · exact .force htail fun _ _ _ _ hv => tail_related hv (.done hv)

theorem call_related {ρ ρ' : Env} (henv : K.env W ρ ρ') {v w : Value} (h : K.value W v w)
    (args : List Expr) :
    Plan.Related K K.value W (callPlan K.left ρ v args) (callPlan K.right ρ' w args) := by
  cases K.value_layer h with
  | cons => exact .fail fun _ => rfl
  | closure hcaptured =>
      simp only [callPlan]
      split
      · exact .count (binding_related henv hcaptured _ _)
      · exact .fail fun _ => rfl
  | atom hatom =>
      cases v with
      | closure | cons => exact hatom.elim
      | int | bool | nil => exact .fail fun _ => rfl
      | prim p =>
          refine .count ?_
          split
          · split
            · exact cons_related henv _ _
            · exact .eval henv fun _ _ _ _ hv => prim_related hv p
            · exact .fail fun _ => rfl
          · exact .fail fun _ => rfl

theorem binary_related {a b a' b' : Value} (ha : K.value W a a') (hb : K.value W b b')
    (op : BinaryOp) : Plan.Related K K.value W (op.plan a b) (op.plan a' b') := by
  have hstrict :=
    strictBinary_congr (K.value_layer ha).describe_eq (K.value_layer hb).describe_eq op
  unfold BinaryOp.plan
  rw [hstrict]
  cases hresult : strictBinary op a b with
  | some result => exact scalar_related (strictBinary_plain hresult)
  | none =>
      have htodo := K.todo_cons (.values ha hb) K.todo_nil
      exact .compare htodo fun _ _ _ => .done (K.atom trivial)

/-- In related environments an expression makes related requests. -/
theorem plan_related {ρ ρ' : Env} (henv : K.env W ρ ρ') (e : Expr) :
    Plan.Related K K.value W (e.plan K.left ρ) (e.plan K.right ρ') := by
  -- What a plan decides by itself it decides by outermost layers, which are the same.
  cases e with
  | int | bool | null | prim => exact .done (K.atom trivial)
  | map => exact .closure henv fun _ _ _ _ hv => .done hv
  | ident place name =>
      simp only [Expr.plan]
      rcases lookup henv name with ⟨hleft, hright⟩ | ⟨x, x', hleft, hright, hx⟩
      · rw [hleft, hright]
        exact .fail fun _ => rfl
      · rw [hleft, hright]
        exact .force hx fun _ _ _ _ hv => .done hv
  | unary place op operand =>
      refine .eval henv fun W₁ _ v w hv => ?_
      rw [applyUnary_congr (K.value_layer hv).describe_eq op]
      exact scalar_related (applyUnary_plain op v)
  | binary place op left right =>
      refine .eval henv fun W₁ h₁ a a' ha => ?_
      cases op.decisive? with
      | none =>
          refine .eval (K.env_mono h₁ henv) fun W₂ h₂ b b' hb => ?_
          exact binary_related (K.value_mono h₂ ha) hb op
      | some decisive =>
          refine .lift_same (boolOperand_congr (K.value_layer ha).describe_eq _) fun x _ => ?_
          split
          · exact .done (K.atom trivial)
          · refine .eval (K.env_mono h₁ henv) fun W₂ h₂ b b' hb => ?_
            exact .lift_same (boolOperand_congr (K.value_layer hb).describe_eq _) fun y _ =>
              .done (K.atom trivial)
  | call place callee args =>
      refine .eval henv fun W₁ h₁ v w hv => ?_
      exact call_related (K.env_mono h₁ henv) hv args
  | cond place test yes no =>
      refine .eval henv fun W₁ h₁ v w hv => ?_
      refine .lift_same (boolOperand_congr (K.value_layer hv).describe_eq _) fun b _ => ?_
      exact eval_related (K.env_mono h₁ henv) _
  | letIn place defs body => exact binding_related henv henv _ body

/-! ## Comparisons -/

/-- Related values meet in the same way. -/
theorem values_meet {a b a' b' : Value} (ha : K.value W a a') (hb : K.value W b b') :
    K.Meets W (a.meet b) (a'.meet b') :=
  Value.meet_sameKind K.value_layer ha hb

/-- Related environments meet in the same way. -/
theorem envs_meet {a b a' b' : Env} (ha : K.env W a a') (hb : K.env W b b') :
    K.Meets W (a.meet b) (a'.meet b') :=
  Env.meet_sameKind K.env_layer ha hb

section

variable {todo todo' : List Comparison}

theorem compare_related (htodo : K.todo W todo todo') :
    Plan.Related K (fun _ => Eq) W (.compare todo .done) (.compare todo' .done) :=
  .compare htodo fun _ _ _ => .done rfl

/-- Meetings that say the same leave related requests. -/
theorem meeting_related (htodo : K.todo W todo todo') {m m' : Meeting} (hm : K.Meets W m m') :
    Plan.Related K (fun _ => Eq) W (m.plan todo) (m'.plan todo') := by
  cases hm with
  | equal => exact compare_related htodo
  | unequal => exact .done rfl
  | envs hleft hright => exact compare_related (K.todo_cons (.envs hleft hright) htodo)
  | parts hx hy hc =>
      refine .force hx fun W₁ h₁ v v' hv => ?_
      refine .force (K.thunk_mono h₁ hy) fun W₂ h₂ u u' hu => ?_
      exact compare_related (K.todo_cons (.values (K.value_mono h₂ hv) hu)
        (K.todo_mono (K.trans h₁ h₂) (K.todo_cons hc htodo)))

theorem comparison_related (htodo : K.todo W todo todo') {c c' : Comparison}
    (hc : K.Comparable W c c') :
    Plan.Related K (fun _ => Eq) W (c.plan todo) (c'.plan todo') := by
  cases hc with
  | values ha hb => exact meeting_related htodo (values_meet ha hb)
  | envs ha hb => exact meeting_related htodo (envs_meet ha hb)
  | tails ha hb =>
      have hx := (K.value_layer ha).tails
      have hy := (K.value_layer hb).tails
      refine .force hx fun W₁ h₁ v v' hv => tail_related hv ?_
      refine .force (K.thunk_mono h₁ hy) fun W₂ h₂ u u' hu => tail_related hu ?_
      exact compare_related (K.todo_cons (.values (K.value_mono h₂ hv) hu)
        (K.todo_mono (K.trans h₁ h₂) htodo))

/-- Steps of comparing are related if both sides agree on what is one and the same, values without
parts aside. -/
theorem step_related (htodo : K.todo W todo todo') {c c' : Comparison} (hc : K.Comparable W c c')
    {same same' : Comparison → Bool}
    (hsame : same c = same' c' ∨ ∃ a : Value, a.IsAtom ∧ c = .values a a ∧ c' = .values a a) :
    Plan.Related K (fun _ => Eq) W (stepPlan same (c :: todo)) (stepPlan same' (c' :: todo')) := by
  have hskip := compare_related htodo
  have hplan := comparison_related htodo hc
  simp only [stepPlan]
  rcases hsame with heq | ⟨a, ha, rfl, rfl⟩
  · rw [heq]
    split
    · exact hskip
    · exact hplan
  · -- The outermost layer of such a value settles the comparison as well.
    simp only [Comparison.plan, Value.meet_self_of_isAtom ha, Meeting.plan, ite_self]
    exact hskip

end

/-! ## Renderings and programs -/

theorem spine_related {item : Value → (String → Plan String) → Plan String}
    (hitem : ∀ W v w, K.value W v w → ∀ next next', (∀ W', K.le W W' → ∀ s,
      Plan.Related K (fun _ => Eq) W' (next s) (next' s)) →
        Plan.Related K (fun _ => Eq) W (item v next) (item w next'))
    (left : Nat) (isFirst : Bool) (out : String) {v w : Value} (hv : K.value W v w)
    {next next' : String → Plan String}
    (hnext : ∀ W', K.le W W' → ∀ s, Plan.Related K (fun _ => Eq) W' (next s) (next' s)) :
    Plan.Related K (fun _ => Eq) W (spinePlan item isFirst out left v next)
      (spinePlan item isFirst out left w next') := by
  induction left generalizing W isFirst out v w next next' with
  | zero =>
      cases K.value_layer hv with
      | atom hatom => cases v <;> first | exact hatom.elim | exact hnext W (K.refl W) _
      | closure | cons => exact hnext W (K.refl W) _
  | succ left ih =>
      cases K.value_layer hv with
      | atom hatom => cases v <;> first | exact hatom.elim | exact hnext W (K.refl W) _
      | closure => exact hnext W (K.refl W) _
      | cons hhead htail =>
          refine .force hhead fun W₁ h₁ x x' hx => hitem W₁ x x' hx _ _ fun W₂ h₂ s => ?_
          have h₁₂ := K.trans h₁ h₂
          refine .force (K.thunk_mono h₁₂ htail) fun W₃ h₃ u u' hu => tail_related hu ?_
          exact ih false _ hu fun W₄ h₄ s => hnext W₄ (K.trans h₁₂ (K.trans h₃ h₄)) s

theorem render_related (printDepth room : Nat) {v w : Value} (hv : K.value W v w)
    {next next' : String → Plan String}
    (hnext : ∀ W', K.le W W' → ∀ s, Plan.Related K (fun _ => Eq) W' (next s) (next' s)) :
    Plan.Related K (fun _ => Eq) W (renderPlan printDepth room v next)
      (renderPlan printDepth room w next') := by
  induction room generalizing W v w next next' with
  | zero =>
      cases K.value_layer hv with
      | atom hatom =>
          cases v with
          | closure | cons => exact hatom.elim
          | bool b => cases b <;> exact hnext W (K.refl W) _
          | int | prim | nil => exact hnext W (K.refl W) _
      | closure | cons => exact hnext W (K.refl W) _
  | succ room ih =>
      have hspine := spine_related (fun W v w hv next next' hnext => ih hv hnext) printDepth
        true "(" hv hnext
      cases K.value_layer hv with
      | atom hatom =>
          cases v with
          | closure | cons => exact hatom.elim
          | bool b => cases b <;> exact hnext W (K.refl W) _
          | int | prim => exact hnext W (K.refl W) _
          | nil => exact hspine
      | closure => exact hnext W (K.refl W) _
      | cons => exact hspine

/-- A program makes related requests under the two settings of a kinship. -/
theorem program_related (printDepth : Nat) (root : Expr) :
    Plan.Related K (fun _ => Eq) W (programPlan ⟨K.left, printDepth⟩ root)
      (programPlan ⟨K.right, printDepth⟩ root) :=
  .eval K.empty fun _ _ _ _ hv => render_related printDepth printDepth hv fun _ _ _ => .done rfl

end Kinship

end PolicyEval
