import Mathlib.Logic.Function.Basic
import PolicyEval.Proofs.Eval.Cells
import PolicyEval.Proofs.Eval.Kinship
import PolicyEval.Proofs.Eval.Outcome
import PolicyEval.Proofs.Eval.Standard

/-!
# The same evaluation under other tags and addresses

Tags and addresses are told apart, and otherwise do not matter.  So an evaluation that starts from
the same data under other tags and addresses, with something counted already, makes the same objects
and ends in the same way; it adds the same work to what was counted.

* `Relabeling` — other tags and addresses.
* `Value.relabel`, `Thunk.relabel`, `Env.relabel` — the same data under other tags and addresses.
* `State.Relabeled` — the same state under other tags and addresses, with extra work counted.
* `Eval.Relabeled` — computations that end in the same way from such states.
* `eval_relabeled`, `run_relabeled` — evaluations and plans do.
-/

namespace PolicyEval

/-! ## The same data -/

/-- Other tags and addresses; no two are made one. -/
structure Relabeling where
  tag : Nat → Nat
  cell : Nat → Nat
  tag_injective : Function.Injective tag
  cell_injective : Function.Injective cell

mutual
/-- The same value under other tags and addresses. -/
def Value.relabel (r : Relabeling) : Value → Value
  | .int n => .int n
  | .bool b => .bool b
  | .prim p => .prim p
  | .closure tag lambda env => .closure (r.tag tag) lambda (env.relabel r)
  | .nil => .nil
  | .cons tag head tail => .cons (r.tag tag) (head.relabel r) (tail.relabel r)

/-- The same thunk under other tags and addresses. -/
def Thunk.relabel (r : Relabeling) : Thunk → Thunk
  | .ready v => .ready (v.relabel r)
  | .byName s => .byName (s.relabel r)
  | .byNeed address s => .byNeed (r.cell address) (s.relabel r)

/-- The same suspension under other tags and addresses. -/
def Suspension.relabel (r : Relabeling) : Suspension → Suspension
  | .mk setting env e => .mk setting (env.relabel r) e

/-- The same bindings under other tags and addresses. -/
def Env.relabel (r : Relabeling) : Env → Env
  | .empty => .empty
  | .frame tag name thunk rest => .frame (r.tag tag) name (thunk.relabel r) (rest.relabel r)
end

theorem Value.relabel_of_isAtom {r : Relabeling} {v : Value} (h : v.IsAtom) : v.relabel r = v := by
  cases v with
  | int | bool | prim | nil => rfl
  | closure | cons => exact h.elim

/-- A comparison of the same data. -/
def Comparison.Relabeled (r : Relabeling) : Comparison → Comparison → Prop :=
  Comparison.SameKind (fun v w => w = v.relabel r) fun a b => b = a.relabel r

theorem Comparison.Relabeled.identical_eq {r : Relabeling} {c c' : Comparison}
    (h : c.Relabeled r c') : c.identical = c'.identical := by
  cases h with
  | tails => rfl
  | @values a b a' b' ha hb =>
      subst ha hb
      cases a <;> cases b <;>
        simp [identical, Value.identical, Value.relabel, r.tag_injective.eq_iff]
  | @envs a b a' b' ha hb =>
      subst ha hb
      cases a <;> cases b <;> simp [identical, Env.same, Env.relabel, r.tag_injective.eq_iff]

/-- The same data under two systems of tags and addresses. -/
def relabelKinship (r : Relabeling) (setting : Setting) : Kinship where
  World := Unit
  le _ _ := True
  left := setting
  right := setting
  strict := True
  value _ v w := w = v.relabel r
  thunk _ x y := y = x.relabel r
  env _ a b := b = a.relabel r
  todo _ := List.Forall₂ (Comparison.Relabeled r)
  refl _ := trivial
  trans _ _ := trivial
  value_mono _ h := h
  thunk_mono _ h := h
  env_mono _ h := h
  todo_mono _ h := h
  atom h := (Value.relabel_of_isAtom h).symm
  empty := rfl
  value_layer {_ v w} h := by
    subst h
    cases v with
    | int | bool | prim | nil => exact .atom trivial
    | closure => exact .closure rfl
    | cons => exact .cons rfl rfl
  env_layer {_ a b} h := by
    subst h
    cases a with
    | empty => exact .empty
    | frame => exact .frame rfl rfl
  ready {_ x w} h := by
    cases x with
    | ready v => exact ⟨v, rfl, Thunk.ready.inj h⟩
    | byName | byNeed => cases h
  ready_strict _ _ v y h := ⟨v.relabel r, h⟩
  todo_nil := .nil
  todo_cons hc h := .cons hc h

/-! ## What is counted -/

namespace Counters

theorem zero_merge (c : Counters) : zero.merge c = c := by
  simp [zero, merge]

theorem merge_zero (c : Counters) : c.merge zero = c := by
  rw [merge_comm, zero_merge]

/-- The five ways to count add to what was counted. -/
theorem IsStep.eq_merge {step : Counters → Counters} (h : IsStep step) (c : Counters) :
    step c = c.merge (step zero) := by
  cases h <;> simp [zero, merge, countExpression, countCall, countPrim, countForced, countCons]

end Counters

theorem State.profile_count {step : Counters → Counters} (h : Counters.IsStep step) (s : State) :
    State.profile { s with counters := step s.counters } = s.profile.merge (step .zero) := by
  rw [← h.eq_merge]
  cases h <;> rfl

theorem State.profile_deeper (s : State) :
    State.profile { s with depth := s.depth.deeper } =
      s.profile.merge { Counters.zero with maxDepth := s.depth.current + 1 } := by
  simp [profile, Counters.merge, Counters.zero, Depth.deeper]

/-! ## The same state -/

/-- The second state is the first one under other tags and addresses, with extra work counted. -/
structure State.Relabeled (r : Relabeling) (extra : Counters) (s s' : State) : Prop where
  tag : ∀ k, s'.store.nextTag + k = r.tag (s.store.nextTag + k)
  cell : ∀ k, s'.store.cells.size + k = r.cell (s.store.cells.size + k)
  kept : ∀ address,
    s'.store.kept? (r.cell address) = (s.store.kept? address).map (Value.relabel r)
  current : s'.depth.current = s.depth.current
  profile : s'.profile = extra.merge s.profile

namespace State.Relabeled

variable {r : Relabeling} {extra : Counters} {s s' : State}

/-- More of the same work leaves the extra work as it is. -/
theorem merge_profile (h : s.Relabeled r extra s') (more : Counters) :
    s'.profile.merge more = extra.merge (s.profile.merge more) := by
  rw [h.profile, Counters.merge_assoc]

theorem count (h : s.Relabeled r extra s') {step : Counters → Counters}
    (hstep : Counters.IsStep step) :
    Relabeled r extra { s with counters := step s.counters }
      { s' with counters := step s'.counters } where
  tag := h.tag
  cell := h.cell
  kept := h.kept
  current := h.current
  profile := by
    rw [profile_count hstep, profile_count hstep]
    exact h.merge_profile _

theorem deeper (h : s.Relabeled r extra s') :
    Relabeled r extra { s with depth := s.depth.deeper }
      { s' with depth := s'.depth.deeper } where
  tag := h.tag
  cell := h.cell
  kept := h.kept
  current := congrArg (· + 1) h.current
  profile := by
    rw [profile_deeper, profile_deeper, h.current]
    exact h.merge_profile _

theorem leave (h : s.Relabeled r extra s') :
    Relabeled r extra { s with depth := s.depth.leave } { s' with depth := s'.depth.leave } :=
  ⟨h.tag, h.cell, h.kept, congrArg (· - 1) h.current, h.profile⟩

theorem freshTag (h : s.Relabeled r extra s') :
    Relabeled r extra { s with store := s.store.freshTag.2 }
      { s' with store := s'.store.freshTag.2 } where
  tag k := by
    have htag := h.tag (1 + k)
    simpa only [Store.freshTag, Nat.add_assoc] using htag
  cell := h.cell
  kept := h.kept
  current := h.current
  profile := h.profile

theorem allocate (h : s.Relabeled r extra s') :
    Relabeled r extra { s with store := s.store.allocate.2 }
      { s' with store := s'.store.allocate.2 } where
  tag := h.tag
  cell k := by
    have hcell := h.cell (1 + k)
    simpa only [Store.size_allocate, Nat.add_assoc] using hcell
  kept address := by simpa only [Store.kept?_allocate] using h.kept address
  current := h.current
  profile := h.profile

theorem extend (h : s.Relabeled r extra s') (ρ ρ' : Env) {bs bs' : List (Name × Thunk)}
    (hlength : bs'.length = bs.length) :
    Relabeled r extra { s with store := (s.store.extend ρ bs).2 }
      { s' with store := (s'.store.extend ρ' bs').2 } := by
  simp only [Store.extend_snd, hlength]
  refine ⟨fun k => ?_, h.cell, h.kept, h.current, h.profile⟩
  simpa only [Nat.add_assoc] using h.tag (bs.length + k)

/-- An address is in use exactly if the other one is. -/
theorem cell_lt_iff (h : s.Relabeled r extra s') {address : Nat} :
    r.cell address < s'.store.cells.size ↔ address < s.store.cells.size := by
  constructor
  · intro hlt
    refine Nat.lt_of_not_le fun hle => ?_
    obtain ⟨k, rfl⟩ := Nat.exists_eq_add_of_le hle
    rw [← h.cell] at hlt
    omega
  · intro hlt
    refine Nat.lt_of_not_le fun hle => ?_
    obtain ⟨k, hk⟩ := Nat.exists_eq_add_of_le hle
    rw [h.cell] at hk
    have heq := r.cell_injective hk
    omega

theorem keep (h : s.Relabeled r extra s') (address : Nat) (v : Value) :
    Relabeled r extra { s with store := s.store.keep address v }
      { s' with store := s'.store.keep (r.cell address) (v.relabel r) } where
  tag := h.tag
  cell := by simpa only [Store.size_keep] using h.cell
  kept n := by
    by_cases hin : address < s.store.cells.size
    · rw [Store.kept?_keep hin, Store.kept?_keep (h.cell_lt_iff.2 hin)]
      simp only [r.cell_injective.eq_iff]
      split
      · rfl
      · exact h.kept n
    · -- Neither store has the cell, and nothing is kept.
      have hout : ¬r.cell address < s'.store.cells.size := fun hlt => hin (h.cell_lt_iff.1 hlt)
      simp only [Store.kept?, Store.keep]
      rw [Array.setIfInBounds_eq_of_size_le (Nat.le_of_not_lt hin),
        Array.setIfInBounds_eq_of_size_le (Nat.le_of_not_lt hout)]
      exact h.kept n
  current := h.current
  profile := h.profile

end State.Relabeled

theorem Store.extend_relabel {r : Relabeling} (ρ : Env) {bs bs' : List (Name × Thunk)}
    (hbs : List.Forall₂ (fun b b' => b.1 = b'.1 ∧ b'.2 = b.2.relabel r) bs bs') {s s' : Store}
    (htag : ∀ k, s'.nextTag + k = r.tag (s.nextTag + k)) :
    (s'.extend (ρ.relabel r) bs').1 = (s.extend ρ bs).1.relabel r := by
  induction hbs with
  | nil => rfl
  | @cons b b' bs bs' hb hbs ih =>
      obtain ⟨name, x⟩ := b
      obtain ⟨name', x'⟩ := b'
      obtain ⟨rfl, rfl⟩ := hb
      have hnext := htag bs.length
      rw [hbs.length_eq] at hnext
      simp only [Store.extend, Store.freshTag, Store.extend_nextTag, Env.relabel, ih,
        hbs.length_eq, hnext]

/-! ## Computations -/

/-- Results that correspond, or the same stop, in corresponding states. -/
inductive ResultRelabeled (r : Relabeling) (extra : Counters) {α β : Type} (R : α → β → Prop) :
    EStateM.Result Stop State α → EStateM.Result Stop State β → Prop
  | ok {a : α} {b : β} {s s' : State} (h : R a b) (hs : s.Relabeled r extra s') :
      ResultRelabeled r extra R (.ok a s) (.ok b s')
  | error (stop : Stop) {s s' : State} (hs : s.Relabeled r extra s') :
      ResultRelabeled r extra R (.error stop s) (.error stop s')

/-- From corresponding states, the second computation ends like the first one. -/
def Eval.Relabeled (r : Relabeling) (extra : Counters) {α β : Type} (R : α → β → Prop)
    (body : Eval α) (body' : Eval β) : Prop :=
  ∀ s s', s.Relabeled r extra s' → ResultRelabeled r extra R (body s) (body' s')

namespace Eval.Relabeled

variable {r : Relabeling} {extra : Counters} {α β γ δ : Type} {R : α → β → Prop}
  {S : γ → δ → Prop}

theorem pure {a : α} {b : β} (h : R a b) :
    Eval.Relabeled r extra R (Pure.pure a) (Pure.pure b) :=
  fun _ _ hs => .ok h hs

theorem stop (stop : Stop) :
    Eval.Relabeled r extra R (throw stop : Eval α) (throw stop : Eval β) :=
  fun _ _ hs => .error stop hs

theorem bind {first : Eval α} {first' : Eval β} {next : α → Eval γ} {next' : β → Eval δ}
    (hfirst : Eval.Relabeled r extra R first first')
    (hnext : ∀ a b, R a b → Eval.Relabeled r extra S (next a) (next' b)) :
    Eval.Relabeled r extra S (first >>= next) (first' >>= next') := by
  intro s s' hs
  have hrun := hfirst s s' hs
  rw [Eval.bind_apply, Eval.bind_apply]
  generalize first s = outcome at hrun ⊢
  generalize first' s' = outcome' at hrun ⊢
  cases hrun with
  | ok h hs => exact hnext _ _ h _ _ hs
  | error stop hs => exact .error stop hs

theorem count {step : Counters → Counters} (hstep : Counters.IsStep step) :
    Eval.Relabeled r extra (fun _ _ => True) (Eval.count step) (Eval.count step) :=
  fun _ _ hs => .ok trivial (hs.count hstep)

theorem freshTag :
    Eval.Relabeled r extra (fun t t' => t' = r.tag t) Eval.freshTag Eval.freshTag :=
  fun _ _ hs => .ok (hs.tag 0) hs.freshTag

theorem allocate :
    Eval.Relabeled r extra (fun a a' => a' = r.cell a) Eval.allocate Eval.allocate :=
  fun _ _ hs => .ok (hs.cell 0) hs.allocate

theorem extend (ρ : Env) {bs bs' : List (Name × Thunk)}
    (hbs : List.Forall₂ (fun b b' => b.1 = b'.1 ∧ b'.2 = b.2.relabel r) bs bs') :
    Eval.Relabeled r extra (fun a b => b = a.relabel r) (Eval.extend ρ bs)
      (Eval.extend (ρ.relabel r) bs') :=
  fun _ _ hs => .ok (Store.extend_relabel ρ hbs hs.tag) (hs.extend _ _ hbs.length_eq.symm)

theorem keep (address : Nat) (v : Value) :
    Eval.Relabeled r extra (fun v w => w = v.relabel r) (Eval.keep address v)
      (Eval.keep (r.cell address) (v.relabel r)) := by
  intro s s' hs
  rw [Eval.keep_apply, Eval.keep_apply, hs.kept]
  cases s.store.kept? address with
  | none => exact .ok rfl (hs.keep address v)
  | some kept => exact .ok rfl hs

theorem within (limit : Option Nat) (span : Span) {body : Eval α} {body' : Eval β}
    (h : Eval.Relabeled r extra R body body') :
    Eval.Relabeled r extra R (Eval.within limit span body) (Eval.within limit span body') := by
  intro s s' hs
  have hrun := h _ _ hs.deeper
  unfold Eval.within
  cases henter : s.depth.enter limit with
  | error n =>
      have henter' : s'.depth.enter limit = .error n := by
        rw [Depth.enter_eq_error_iff] at henter ⊢
        rwa [hs.current]
      rw [henter']
      exact .error _ hs
  | ok depth =>
      obtain ⟨hroom, rfl⟩ := Depth.enter_eq_ok.1 henter
      have henter' : s'.depth.enter limit = .ok s'.depth.deeper := by
        refine Depth.enter_eq_ok.2 ⟨fun n hn => ?_, rfl⟩
        rw [hs.current]
        exact hroom n hn
      rw [henter']
      dsimp only
      generalize body { s with depth := s.depth.deeper } = outcome at hrun ⊢
      generalize body' { s' with depth := s'.depth.deeper } = outcome' at hrun ⊢
      cases hrun with
      | ok h hs => exact .ok h hs.leave
      | error stop hs => exact .error _ hs.leave

/-- From corresponding stores, the same work is reported, up to the extra work. -/
theorem profile_eq {body : Eval α} {body' : Eval β} (h : Eval.Relabeled r extra R body body')
    {store store' : Store}
    (hs : (State.start store).Relabeled r extra (.start store')) :
    (body'.report store').profile = extra.merge (body.report store).profile := by
  have hrun := h _ _ hs
  unfold Eval.report
  generalize body (.start store) = outcome at hrun ⊢
  generalize body' (.start store') = outcome' at hrun ⊢
  cases hrun with
  | ok _ hs => exact hs.profile
  | error _ hs => exact hs.profile

end Eval.Relabeled

/-! ## Evaluations -/

section

variable {r : Relabeling} {extra : Counters} {n m : Nat}

/-- Evaluating with this much fuel is the same under other tags and addresses. -/
def EvalRelabeled (r : Relabeling) (extra : Counters) (n : Nat) : Prop :=
  ∀ setting ρ e, Eval.Relabeled r extra (fun v w => w = v.relabel r) (eval n setting ρ e)
    (eval n setting (ρ.relabel r) e)

/-- So is comparing. -/
def CompareRelabeled (r : Relabeling) (extra : Counters) (n m : Nat) : Prop :=
  ∀ {todo todo' : List Comparison}, List.Forall₂ (Comparison.Relabeled r) todo todo' →
    Eval.Relabeled r extra Eq (compareAll (eval n) m todo) (compareAll (eval n) m todo')

theorem suspension_relabeled (hn : EvalRelabeled r extra n) (q : Suspension) :
    Eval.Relabeled r extra (fun v w => w = v.relabel r) (q.run (eval n))
      ((q.relabel r).run (eval n)) := by
  obtain ⟨setting, ρ, e⟩ := q
  exact (Eval.Relabeled.count .forced).bind fun _ _ _ => hn setting ρ e

theorem force_relabeled (hn : EvalRelabeled r extra n) (x : Thunk) :
    Eval.Relabeled r extra (fun v w => w = v.relabel r) (force (eval n) x)
      (force (eval n) (x.relabel r)) := by
  cases x with
  | ready v => exact .pure rfl
  | byName q => exact suspension_relabeled hn q
  | byNeed address q =>
      intro s s' hs
      have hkept := hs.kept address
      cases hleft : s.store.kept? address with
      | none =>
          rw [hleft] at hkept
          rw [Eval.force_of_pending hleft, Thunk.relabel, Eval.force_of_pending hkept]
          have hrun := (suspension_relabeled hn q).bind fun v w (hv : w = v.relabel r) => by
            rw [hv]
            exact Eval.Relabeled.keep address v
          exact hrun s s' hs
      | some v =>
          rw [hleft] at hkept
          rw [Eval.force_of_kept hleft, Thunk.relabel, Eval.force_of_kept hkept]
          exact .ok rfl hs

theorem delay_relabeled (hn : EvalRelabeled r extra n) (d : Discipline) (setting : Setting)
    (ρ : Env) (e : Expr) :
    Eval.Relabeled r extra (fun x y => y = x.relabel r) (delay (eval n) d setting ρ e)
      (delay (eval n) d setting (ρ.relabel r) e) := by
  cases d with
  | value =>
      refine (hn setting ρ e).bind fun v w hv => .pure ?_
      rw [hv, Thunk.relabel]
  | name => exact .pure rfl
  | need =>
      refine Eval.Relabeled.allocate.bind fun a a' ha => .pure ?_
      rw [ha, Thunk.relabel, Suspension.relabel]

/-- Plans of the same data do the same under other tags and addresses. -/
theorem run_relabeled (hn : EvalRelabeled r extra n) (hm : CompareRelabeled r extra n m)
    {setting : Setting} {α β : Type} {post : (relabelKinship r setting).World → α → β → Prop}
    {W : (relabelKinship r setting).World} {p : Plan α} {q : Plan β} (hp : p.IsStandard)
    (hrel : Plan.Related (relabelKinship r setting) post W p q) :
    Eval.Relabeled r extra (post W) (p.run (eval n) m) (q.run (eval n) m) := by
  -- Each request on the right is the relabeled one, so the left one determines it.
  induction hrel with
  | done h => exact .pure h
  | fail h =>
      rw [h trivial]
      exact .stop _
  | count _ ih => exact (Eval.Relabeled.count hp.1).bind fun _ _ _ => ih hp.2
  | @eval W ρ ρ' e next next' henv _ ih =>
      obtain rfl : ρ' = ρ.relabel r := henv
      exact (hn setting ρ e).bind fun v w hv => ih () trivial v w hv (hp v)
  | @force W x x' next next' hthunk _ ih =>
      obtain rfl : x' = x.relabel r := hthunk
      exact (force_relabeled hn x).bind fun v w hv => ih () trivial v w hv (hp v)
  | @delay W axis ρ ρ' e next next' _ henv _ ih =>
      obtain rfl : ρ' = ρ.relabel r := henv
      exact (delay_relabeled hn _ setting ρ e).bind fun x y hx => ih () trivial x y hx (hp x)
  | @cell W x x' y y' next next' hhead htail _ _ ih =>
      obtain rfl : x' = x.relabel r := hhead
      obtain rfl : y' = y.relabel r := htail
      refine Eval.Relabeled.freshTag.bind fun t t' ht => ih () trivial _ _ ?_ (hp _)
      rw [ht]
      rfl
  | @closure W lambda ρ ρ' next next' henv _ ih =>
      obtain rfl : ρ' = ρ.relabel r := henv
      refine Eval.Relabeled.freshTag.bind fun t t' ht => ih () trivial _ _ ?_ (hp _)
      rw [ht]
      rfl
  | @extend W ρ ρ' bs bs' next next' henv hbs _ ih =>
      obtain rfl : ρ' = ρ.relabel r := henv
      exact (Eval.Relabeled.extend ρ hbs).bind fun a b hab => ih () trivial a b hab (hp a)
  | compare htodo _ ih =>
      refine (hm htodo).bind fun b b' hb => ?_
      subst hb
      exact ih () trivial b (hp b)

theorem compare_relabeled (hn : EvalRelabeled r extra n) (m : Nat) :
    CompareRelabeled r extra n m := by
  induction m with
  | zero => exact fun _ => .stop _
  | succ m ih =>
      intro todo todo' htodo
      rw [compareAll_succ, compareAll_succ]
      cases htodo with
      | nil => exact .pure rfl
      | cons hc htodo =>
          -- The kinship needs some setting; a comparison asks for no expression.
          have hrel := (relabelKinship r ⟨.eager, none⟩).step_related (W := ()) htodo hc
            (.inl hc.identical_eq)
          exact run_relabeled hn ih (stepPlan_isStandard _ _) hrel

/-- Evaluating is the same under other tags and addresses. -/
theorem eval_relabeled (r : Relabeling) (extra : Counters) (n : Nat) :
    EvalRelabeled r extra n := by
  induction n with
  | zero => exact fun _ _ _ => .stop _
  | succ n ih =>
      intro setting ρ e
      rw [eval_succ, eval_succ]
      have hplan : Plan.Related (relabelKinship r setting) _ () (e.plan setting ρ)
          (e.plan setting (ρ.relabel r)) :=
        (relabelKinship r setting).plan_related (W := ()) rfl e
      refine .within _ _ (run_relabeled ih (compare_relabeled ih n) ?_ (.count hplan))
      exact ⟨.expression, e.plan_isStandard setting ρ⟩

end

end PolicyEval
