import PolicyEval.Proofs.Eval.Cells
import PolicyEval.Proofs.Eval.Operands
import PolicyEval.Proofs.Eval.Outcome
import PolicyEval.Proofs.Likeness.Reading

/-!
# Data and computations that are alike

Values, thunks and environments are alike if they are put together in the same way from expressions
that are alike: with the same tags, the same store cells and the same settings.  Computations are
alike if, started in states that are alike, they end alike.

* `Value.Alike`, `Thunk.Alike`, `Env.Alike` — data that are alike.
* `Store.Alike`, `State.Alike` — stores that keep results that are alike, and states over them.
* `Fault.Alike` — failures for the same reason at places that are alike.
* `Eval.Alike` — computations that are alike, and how they are put together.
-/

namespace PolicyEval

/-! ## Values -/

/-- Functions that are alike. -/
structure Lambda.Alike (L : Likeness) (f f' : Lambda) : Prop where
  place : f.place.Alike L f'.place
  params : List.Forall₂ (Binder.Alike L) f.params f'.params
  body : f.body.Alike L f'.body

mutual
/-- Values that are alike part by part. -/
inductive Value.Alike (L : Likeness) : Value → Value → Prop
  | int (n : Int) : Value.Alike L (.int n) (.int n)
  | bool (b : Bool) : Value.Alike L (.bool b) (.bool b)
  | prim (p : Prim) : Value.Alike L (.prim p) (.prim p)
  | closure (tag : Nat) {f f' : Lambda} {ρ ρ' : Env} (hf : f.Alike L f') (hρ : Env.Alike L ρ ρ') :
      Value.Alike L (.closure tag f ρ) (.closure tag f' ρ')
  | nil : Value.Alike L .nil .nil
  | cons (tag : Nat) {x x' y y' : Thunk} (hx : Thunk.Alike L x x') (hy : Thunk.Alike L y y') :
      Value.Alike L (.cons tag x y) (.cons tag x' y')

/-- Thunks that are alike; results are kept in the same cell. -/
inductive Thunk.Alike (L : Likeness) : Thunk → Thunk → Prop
  | ready {v v' : Value} (h : Value.Alike L v v') : Thunk.Alike L (.ready v) (.ready v')
  | byName {q q' : Suspension} (h : Suspension.Alike L q q') :
      Thunk.Alike L (.byName q) (.byName q')
  | byNeed (address : Nat) {q q' : Suspension} (h : Suspension.Alike L q q') :
      Thunk.Alike L (.byNeed address q) (.byNeed address q')

/-- Expressions that are alike, suspended under the same setting. -/
inductive Suspension.Alike (L : Likeness) : Suspension → Suspension → Prop
  | mk (setting : Setting) {ρ ρ' : Env} {e e' : Expr} (hρ : Env.Alike L ρ ρ')
      (he : e.Alike L e') : Suspension.Alike L (.mk setting ρ e) (.mk setting ρ' e')

/-- Environments that bind names that are alike to thunks that are alike. -/
inductive Env.Alike (L : Likeness) : Env → Env → Prop
  | empty : Env.Alike L .empty .empty
  | frame (tag : Nat) {name name' : Name} {x x' : Thunk} {rest rest' : Env}
      (hname : L.name name name') (hx : Thunk.Alike L x x') (hrest : Env.Alike L rest rest') :
      Env.Alike L (.frame tag name x rest) (.frame tag name' x' rest')
end

/-- Bindings of names that are alike to thunks that are alike. -/
structure Binding.Alike (L : Likeness) (b b' : Name × Thunk) : Prop where
  name : L.name b.1 b'.1
  thunk : b.2.Alike L b'.2

section

variable {L : Likeness}

theorem Lambda.Alike.arity_eq {f f' : Lambda} (h : f.Alike L f') : f.arity = f'.arity :=
  h.params.length_eq

theorem Lambda.Alike.expr {f f' : Lambda} (h : f.Alike L f') : f.expr.Alike L f'.expr :=
  .map h.place h.params h.body

/-- Values that are alike are described alike. -/
theorem Value.Alike.describe_eq {v v' : Value} (h : v.Alike L v') : v.describe = v'.describe := by
  cases h with
  | closure tag hf => simp only [Value.describe, hf.arity_eq]
  | int | bool | prim | nil | cons => rfl

theorem Value.IsScalar.alike {v : Value} (h : v.IsScalar) : v.Alike L v := by
  cases v with
  | int n => exact .int n
  | bool b => exact .bool b
  | prim | closure | nil | cons => exact h.elim

theorem Env.Alike.lookup {name name' : Name} (hname : L.name name name') : {ρ ρ' : Env} →
    ρ.Alike L ρ' → Option.Rel (Thunk.Alike L) (ρ.lookup name) (ρ'.lookup name')
  | .empty, _, h => by
      cases h
      exact .none
  | .frame _ _ _ rest, _, h => by
      cases h with
      | frame tag hbound hx hrest =>
          unfold Env.lookup
          rw [L.same_eq hbound hname]
          split
          · exact .some hx
          · exact Env.Alike.lookup hname hrest

theorem Env.Alike.same_eq {ρ ρ' σ σ' : Env} (hρ : ρ.Alike L ρ') (hσ : σ.Alike L σ') :
    ρ.same σ = ρ'.same σ' := by
  cases hρ <;> cases hσ <;> rfl

/-! ## Stores and states -/

/-- Stores of the same size that give out the same tags and keep results that are alike. -/
structure Store.Alike (L : Likeness) (s s' : Store) : Prop where
  nextTag : s.nextTag = s'.nextTag
  size : s.cells.size = s'.cells.size
  kept : ∀ address, Option.Rel (Value.Alike L) (s.kept? address) (s'.kept? address)

/-- States over stores that are alike, on the same level and with the same counts. -/
structure State.Alike (L : Likeness) (s s' : State) : Prop where
  store : s.store.Alike L s'.store
  depth : s.depth = s'.depth
  counters : s.counters = s'.counters

theorem Store.Alike.allocate {s s' : Store} (h : s.Alike L s') :
    s.allocate.2.Alike L s'.allocate.2 := by
  refine ⟨h.nextTag, ?_, fun address => ?_⟩
  · rw [Store.size_allocate, Store.size_allocate, h.size]
  · rw [Store.kept?_allocate, Store.kept?_allocate]
    exact h.kept address

theorem Store.Alike.keep {s s' : Store} (h : s.Alike L s') {v v' : Value} (hv : v.Alike L v')
    (address : Nat) : (s.keep address v).Alike L (s'.keep address v') := by
  refine ⟨h.nextTag, ?_, fun n => ?_⟩
  · rw [Store.size_keep, Store.size_keep, h.size]
  · by_cases hsize : address < s.cells.size
    · rw [Store.kept?_keep hsize, Store.kept?_keep (by rwa [← h.size])]
      split
      · exact .some hv
      · exact h.kept n
    · -- The cell is in neither store, and nothing is kept.
      have hsame : ∀ (t : Store) (w : Value), t.cells.size = s.cells.size →
          (t.keep address w).kept? n = t.kept? n := by
        intro t w ht
        rw [Store.kept?, Store.keep,
          Array.setIfInBounds_eq_of_size_le (by rw [ht]; exact Nat.le_of_not_lt hsize)]
        rfl
      rw [hsame s v rfl, hsame s' v' h.size.symm]
      exact h.kept n

theorem Store.Alike.freshTag {s s' : Store} (h : s.Alike L s') :
    s.freshTag.1 = s'.freshTag.1 ∧ s.freshTag.2.Alike L s'.freshTag.2 :=
  ⟨h.nextTag, congrArg (· + 1) h.nextTag, h.size, h.kept⟩

theorem Store.Alike.extend {s s' : Store} (h : s.Alike L s') {ρ ρ' : Env} (hρ : ρ.Alike L ρ')
    {bs bs' : List (Name × Thunk)} (hbs : List.Forall₂ (Binding.Alike L) bs bs') :
    (s.extend ρ bs).1.Alike L (s'.extend ρ' bs').1 ∧
      (s.extend ρ bs).2.Alike L (s'.extend ρ' bs').2 := by
  induction hbs with
  | nil => exact ⟨hρ, h⟩
  | cons hb _ ih =>
      obtain ⟨htag, hstore⟩ := ih.2.freshTag
      refine ⟨?_, hstore⟩
      simp only [Store.extend]
      rw [htag]
      exact .frame _ hb.name hb.thunk ih.1

/-! ## Failures -/

/-- Variables that are alike have no binding, or one cause that is about no variable. -/
inductive FaultCause.Alike (L : Likeness) : FaultCause → FaultCause → Prop
  | unbound {name name' : Name} (h : L.name name name') :
      Alike L (.unboundVariable name) (.unboundVariable name')
  | other {cause : FaultCause} (h : cause.isUnbound = false) : Alike L cause cause

/-- Failures for the same reason, at places that are alike or at no place. -/
structure Fault.Alike (L : Likeness) (f f' : Fault) : Prop where
  cause : f.cause.Alike L f'.cause
  span : Option.Rel L.span f.span f'.span

/-- Stops that are alike. -/
inductive Stop.Alike (L : Likeness) : Stop → Stop → Prop
  | fault {f f' : Fault} (h : f.Alike L f') : Alike L (.fault f) (.fault f')
  | outOfFuel : Alike L .outOfFuel .outOfFuel

theorem Stop.Alike.leaving {stop stop' : Stop} (h : stop.Alike L stop') {span span' : Span}
    (hspan : L.span span span') : (stop.leaving span).Alike L (stop'.leaving span') := by
  cases h with
  | outOfFuel => exact .outOfFuel
  | @fault f f' h =>
      obtain ⟨cause, at?⟩ := f
      obtain ⟨cause', at?'⟩ := f'
      obtain ⟨hcause, hat⟩ := h
      refine .fault ⟨hcause, .some ?_⟩
      cases hat with
      | none => exact hspan
      | some hat => exact hat

end

/-! ## Computations -/

/-- Results that correspond, or stops that are alike, in states that are alike. -/
inductive ResultAlike (L : Likeness) {α β : Type} (R : α → β → Prop) :
    EStateM.Result Stop State α → EStateM.Result Stop State β → Prop
  | ok {a : α} {b : β} {s s' : State} (h : R a b) (hs : s.Alike L s') :
      ResultAlike L R (.ok a s) (.ok b s')
  | error {stop stop' : Stop} {s s' : State} (h : stop.Alike L stop') (hs : s.Alike L s') :
      ResultAlike L R (.error stop s) (.error stop' s')

/-- From states that are alike, the computations end alike. -/
def Eval.Alike (L : Likeness) {α β : Type} (R : α → β → Prop) (body : Eval α) (body' : Eval β) :
    Prop :=
  ∀ s s', s.Alike L s' → ResultAlike L R (body s) (body' s')

namespace Eval.Alike

variable {L : Likeness} {α β γ δ : Type} {R : α → β → Prop} {S : γ → δ → Prop}

theorem pure {a : α} {b : β} (h : R a b) : Eval.Alike L R (Pure.pure a) (Pure.pure b) :=
  fun _ _ hs => .ok h hs

theorem bind {first : Eval α} {first' : Eval β} {next : α → Eval γ} {next' : β → Eval δ}
    (hfirst : Eval.Alike L R first first')
    (hnext : ∀ a b, R a b → Eval.Alike L S (next a) (next' b)) :
    Eval.Alike L S (first >>= next) (first' >>= next') := by
  intro s s' hs
  have hrun := hfirst s s' hs
  rw [Eval.bind_apply, Eval.bind_apply]
  generalize first s = outcome at hrun ⊢
  generalize first' s' = outcome' at hrun ⊢
  cases hrun with
  | ok h hs => exact hnext _ _ h _ _ hs
  | error h hs => exact .error h hs

theorem outOfFuel :
    Eval.Alike L R (throw .outOfFuel : Eval α) (throw .outOfFuel : Eval β) :=
  fun _ _ hs => .error .outOfFuel hs

theorem fail {cause cause' : FaultCause} (h : cause.Alike L cause') :
    Eval.Alike L R (Eval.fail cause) (Eval.fail cause') :=
  fun _ _ hs => .error (.fault ⟨h, .none⟩) hs

theorem lift {result : Except FaultCause α} {result' : Except FaultCause β}
    (h : ExceptRel (FaultCause.Alike L) R result result') :
    Eval.Alike L R (Eval.lift result) (Eval.lift result') := by
  cases h with
  | ok h => exact pure h
  | error h => exact fail h

theorem count (step : Counters → Counters) :
    Eval.Alike L (fun _ _ => True) (Eval.count step) (Eval.count step) :=
  fun _ _ hs => .ok trivial ⟨hs.store, hs.depth, congrArg step hs.counters⟩

theorem freshTag : Eval.Alike L Eq Eval.freshTag Eval.freshTag :=
  fun _ _ hs => .ok hs.store.freshTag.1 ⟨hs.store.freshTag.2, hs.depth, hs.counters⟩

theorem allocate : Eval.Alike L Eq Eval.allocate Eval.allocate :=
  fun _ _ hs => .ok hs.store.size ⟨hs.store.allocate, hs.depth, hs.counters⟩

theorem extend {ρ ρ' : Env} (hρ : ρ.Alike L ρ') {bs bs' : List (Name × Thunk)}
    (hbs : List.Forall₂ (Binding.Alike L) bs bs') :
    Eval.Alike L (Env.Alike L) (Eval.extend ρ bs) (Eval.extend ρ' bs') := by
  intro s s' hs
  obtain ⟨hinner, hstore⟩ := hs.store.extend hρ hbs
  exact .ok hinner ⟨hstore, hs.depth, hs.counters⟩

theorem keep (address : Nat) {v v' : Value} (hv : v.Alike L v') :
    Eval.Alike L (Value.Alike L) (Eval.keep address v) (Eval.keep address v') := by
  intro s s' hs
  have hkept := hs.store.kept address
  rw [Eval.keep_apply, Eval.keep_apply]
  generalize s.store.kept? address = kept at hkept ⊢
  generalize s'.store.kept? address = kept' at hkept ⊢
  cases hkept with
  | some h => exact .ok h hs
  | none => exact .ok hv ⟨hs.store.keep hv address, hs.depth, hs.counters⟩

theorem within (limit : Option Nat) {span span' : Span} (hspan : L.span span span')
    {body : Eval α} {body' : Eval β} (h : Eval.Alike L R body body') :
    Eval.Alike L R (Eval.within limit span body) (Eval.within limit span' body') := by
  intro s s' hs
  unfold Eval.within
  rw [← hs.depth]
  cases s.depth.enter limit with
  | error n => exact .error (.fault ⟨.other rfl, .none⟩) hs
  | ok depth =>
      have hrun := h { s with depth } { s' with depth } ⟨hs.store, rfl, hs.counters⟩
      dsimp only
      generalize body { s with depth } = outcome at hrun ⊢
      generalize body' { s' with depth } = outcome' at hrun ⊢
      cases hrun with
      | ok h hs => exact .ok h ⟨hs.store, congrArg Depth.leave hs.depth, hs.counters⟩
      | error h hs =>
          exact .error (h.leaving hspan) ⟨hs.store, congrArg Depth.leave hs.depth, hs.counters⟩

end Eval.Alike

end PolicyEval
