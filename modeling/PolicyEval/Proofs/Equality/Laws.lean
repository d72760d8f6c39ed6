import PolicyEval.Proofs.Equality.Abreast

/-!
# The laws of equality

A value is evaluated if each of its parts is known or is kept by the store, down to the last one.
What such a value shows is the value with all its parts filled in.  Comparing evaluated values needs
no evaluation: it tells whether what they show looks the same in every part.  So it always ends, and
it is an equivalence.

* `Value.Shows`, `Thunk.Shows`, `Env.Shows` — what evaluated data show.
* `Value.IsEvaluatedIn` — evaluated values.
* `compareAll_of_shows` — comparing data is comparing what they show.
* `Session.equals_decides_equality` — equality is what the plain comparison says it is, and on
  evaluated values it is a total equivalence.
-/

namespace PolicyEval

/-! ## What evaluated data show -/

mutual
/-- The second value is the first one with kept results in the place of the thunks. -/
inductive Value.Shows (store : Store) : Value → Value → Prop
  | atom {v : Value} (h : v.IsAtom) : Value.Shows store v v
  | closure {tag : Nat} {lambda : Lambda} {ρ ρ' : Env} (henv : Env.Shows store ρ ρ') :
      Value.Shows store (.closure tag lambda ρ) (.closure tag lambda ρ')
  | cons {tag : Nat} {x x' y : Thunk} {w : Value} (hhead : Thunk.Shows store x x')
      (htail : Thunk.Shows store y (.ready w)) (hlist : w.isList = true) :
      Value.Shows store (.cons tag x y) (.cons tag x' (.ready w))

/-- The second thunk is the value of the first one, with kept results in the place of the thunks. -/
inductive Thunk.Shows (store : Store) : Thunk → Thunk → Prop
  | ready {v w : Value} (h : Value.Shows store v w) : Thunk.Shows store (.ready v) (.ready w)
  | kept {address : Nat} {q : Suspension} {v w : Value} (hkept : store.kept? address = some v)
      (h : Value.Shows store v w) : Thunk.Shows store (.byNeed address q) (.ready w)

/-- The second environment is the first one with kept results in the place of the thunks. -/
inductive Env.Shows (store : Store) : Env → Env → Prop
  | empty : Env.Shows store .empty .empty
  | frame {tag : Nat} {name : Name} {x x' : Thunk} {rest rest' : Env}
      (hbound : Thunk.Shows store x x') (hrest : Env.Shows store rest rest') :
      Env.Shows store (.frame tag name x rest) (.frame tag name x' rest')
end

/-- Every part of the value is known, or its result is kept; second parts of list cells are
lists. -/
def Value.IsEvaluatedIn (store : Store) (v : Value) : Prop := ∃ w, v.Shows store w

section

variable {store : Store}

mutual
/-- Data without suspensions show themselves. -/
theorem Value.IsEvaluated.shows : {v : Value} → v.IsEvaluated → v.Shows store v
  | .int _, _ | .bool _, _ | .prim _, _ | .nil, _ => .atom trivial
  | .closure _ _ ρ, h => by
      simp only [Value.IsEvaluated] at h
      exact .closure h.shows
  | .cons _ x y, h => by
      simp only [Value.IsEvaluated] at h
      obtain ⟨hx, hy, v, rfl, hlist⟩ := h
      exact .cons hx.shows hy.shows hlist

theorem Thunk.IsEvaluated.shows : {x : Thunk} → x.IsEvaluated → x.Shows store x
  | .ready v, h => by
      simp only [Thunk.IsEvaluated] at h
      exact .ready h.shows
  | .byName _, h | .byNeed _ _, h => by simp only [Thunk.IsEvaluated] at h

theorem Env.IsEvaluated.shows : {ρ : Env} → ρ.IsEvaluated → ρ.Shows store ρ
  | .empty, _ => .empty
  | .frame _ _ x rest, h => by
      simp only [Env.IsEvaluated] at h
      exact .frame h.1.shows h.2.shows
end

mutual
/-- What is shown is without suspensions. -/
theorem Value.Shows.isEvaluated {v w : Value} : v.Shows store w → w.IsEvaluated
  | .atom h => by
      cases v with
      | int | bool | prim | nil => simp only [Value.IsEvaluated]
      | closure | cons => exact h.elim
  | .closure henv => by
      simp only [Value.IsEvaluated]
      exact henv.isEvaluated
  | .cons hhead htail hlist => by
      simp only [Value.IsEvaluated]
      exact ⟨hhead.isEvaluated, htail.isEvaluated, _, rfl, hlist⟩

theorem Thunk.Shows.isEvaluated {x y : Thunk} : x.Shows store y → y.IsEvaluated
  | .ready h | .kept _ h => by
      simp only [Thunk.IsEvaluated]
      exact h.isEvaluated

theorem Env.Shows.isEvaluated {ρ ρ' : Env} : ρ.Shows store ρ' → ρ'.IsEvaluated
  | .empty => by simp only [Env.IsEvaluated]
  | .frame hbound hrest => by
      simp only [Env.IsEvaluated]
      exact ⟨hbound.isEvaluated, hrest.isEvaluated⟩
end

mutual
/-- Data show one thing only. -/
theorem Value.Shows.unique {v w w' : Value} : v.Shows store w → v.Shows store w' → w = w'
  | .atom h, h' => by
      cases h' with
      | atom => rfl
      | closure | cons => exact h.elim
  | .closure henv, h' => by
      cases h' with
      | atom h => exact h.elim
      | closure henv' => rw [henv.unique henv']
  | .cons hhead htail _, h' => by
      cases h' with
      | atom h => exact h.elim
      | cons hhead' htail' _ => rw [hhead.unique hhead', htail.unique htail']

theorem Thunk.Shows.unique {x y y' : Thunk} : x.Shows store y → x.Shows store y' → y = y'
  | .ready h, h' => by
      cases h' with
      | ready h' => rw [h.unique h']
  | .kept hkept h, h' => by
      cases h' with
      | kept hkept' h' =>
          cases hkept.symm.trans hkept'
          rw [h.unique h']

theorem Env.Shows.unique {ρ ρ₁ ρ₂ : Env} : ρ.Shows store ρ₁ → ρ.Shows store ρ₂ → ρ₁ = ρ₂
  | .empty, h' => by
      cases h'
      rfl
  | .frame hbound hrest, h' => by
      cases h' with
      | frame hbound' hrest' => rw [hbound.unique hbound', hrest.unique hrest']
end

theorem Value.Shows.layer {v w : Value} (h : v.Shows store w) :
    v.SameLayer (Thunk.Shows store) (Env.Shows store) w := by
  cases h with
  | atom h => exact .atom h
  | closure henv => exact .closure henv
  | cons hhead htail _ => exact .cons hhead htail

theorem Env.Shows.layer {ρ ρ' : Env} (h : ρ.Shows store ρ') :
    ρ.SameLayer (Thunk.Shows store) (Env.Shows store) ρ' := by
  cases h with
  | empty => exact .empty
  | frame hbound hrest => exact .frame hbound hrest

theorem Value.Shows.sameTag {v w : Value} (h : v.Shows store w) : v.SameTag w := by
  cases h with
  | atom h => exact .atom h
  | closure => exact .closure
  | cons => exact .cons

theorem Env.Shows.sameTag {ρ ρ' : Env} (h : ρ.Shows store ρ') : ρ.SameTag ρ' := by
  cases h with
  | empty => exact .empty
  | frame => exact .frame

/-! ## Comparing what is shown -/

/-- Both sides of the second comparison are what those of the first one show. -/
abbrev Comparison.Shows (store : Store) : Comparison → Comparison → Prop :=
  Comparison.SameKind (Value.Shows store) (Env.Shows store)

/-- The value of an evaluated thunk is there. -/
theorem Thunk.Shows.force {x y : Thunk} (h : x.Shows store y) (ev : Evaluator) {s : State}
    (hs : s.store = store) :
    ∃ v w, PolicyEval.force ev x s = .ok v s ∧ y = .ready w ∧ v.Shows store w := by
  subst hs
  cases h with
  | ready h => exact ⟨_, _, rfl, rfl, h⟩
  | kept hkept h => exact ⟨_, _, Eval.force_of_kept hkept, rfl, h⟩

theorem Thunk.Shows.forceTail {x : Thunk} {w : Value} (h : x.Shows store (.ready w))
    (hlist : w.isList = true) (ev : Evaluator) {s : State} (hs : s.store = store) :
    ∃ v, PolicyEval.forceTail ev x s = .ok v s ∧ v.Shows store w := by
  obtain ⟨v, w', hforce, ⟨⟩, hshows⟩ := h.force ev hs
  refine ⟨v, ?_, hshows⟩
  have htail : PolicyEval.asTail v = .ok v :=
    PolicyEval.asTail_eq_ok.2 ⟨hshows.layer.isList_eq.symm.trans hlist, rfl⟩
  rw [PolicyEval.forceTail, Eval.bind_of_ok hforce, htail]
  rfl

theorem forceTail_ready (ev : Evaluator) {v : Value} (h : v.isList = true) (s : State) :
    forceTail ev (.ready v) s = .ok v s := by
  have htail : asTail v = .ok v := asTail_eq_ok.2 ⟨h, rfl⟩
  rw [forceTail, Eval.bind_of_ok (rfl : force ev (.ready v) s = .ok v s), htail]
  rfl

/-- Comparing data is comparing what they show. -/
theorem compareAll_of_shows (ev : Evaluator) {s : State} (hs : s.store = store) (fuel : Nat)
    {todo todo' : List Comparison} (h : List.Forall₂ (Comparison.Shows store) todo todo') :
    compareAll ev fuel todo s = compareAll ev fuel todo' s := by
  induction fuel generalizing todo todo' with
  | zero => rfl
  | succ fuel ih =>
      cases h with
      | nil => rfl
      | @cons c c' todo todo' hc htodo =>
          -- Forcing known and kept parts changes nothing, so both sides go on from one state.
          have hmeeting : ∀ {m m' : Meeting}, m.SameKind (Thunk.Shows store) (Value.Shows store)
              (Env.Shows store) m' → m.proceed ev fuel todo s = m'.proceed ev fuel todo' s := by
            intro m m' hm
            cases hm with
            | equal => exact ih htodo
            | unequal => rfl
            | envs hleft hright => exact ih (.cons (.envs hleft hright) htodo)
            | parts hx hy hnext =>
                obtain ⟨v, v', hv, rfl, hshows⟩ := hx.force ev hs
                obtain ⟨w, w', hw, rfl, hshows'⟩ := hy.force ev hs
                simp only [Meeting.proceed]
                rw [Eval.bind_of_ok hv, Eval.bind_of_ok hw]
                exact ih (.cons (.values hshows hshows') (.cons hnext htodo))
          have hidentical := (hc.mono Value.Shows.sameTag Env.Shows.sameTag).identical_eq
          cases hc with
          | values ha hb =>
              simp only [Comparison.identical] at hidentical
              rw [compareAll_values, compareAll_values, hidentical]
              split
              · exact ih htodo
              · exact hmeeting (Value.meet_sameKind Value.Shows.layer ha hb)
          | envs ha hb =>
              simp only [Comparison.identical] at hidentical
              rw [compareAll_envs, compareAll_envs, hidentical]
              split
              · exact ih htodo
              · exact hmeeting (Env.meet_sameKind Env.Shows.layer ha hb)
          | tails ha hb =>
              cases ha with
              | atom h => exact h.elim
              | cons _ hx hxlist =>
                  cases hb with
                  | atom h => exact h.elim
                  | cons _ hy hylist =>
                      obtain ⟨v, hv, hshows⟩ := hx.forceTail hxlist ev hs
                      obtain ⟨w, hw, hshows'⟩ := hy.forceTail hylist ev hs
                      rw [compareAll_tails, compareAll_tails, Eval.bind_of_ok hv,
                        Eval.bind_of_ok hw, Eval.bind_of_ok (forceTail_ready ev hxlist s),
                        Eval.bind_of_ok (forceTail_ready ev hylist s)]
                      exact ih (.cons (.values hshows hshows') htodo)

/-! ## Tags of what is shown -/

open Classical in
/-- The register of what the listed things show. -/
noncomputable def Register.shown (r : Register) (store : Store) : Register where
  next := r.next
  carrier tag :=
    if h : ∃ shown object, r.carrier tag = some object ∧
        Sum.LiftRel (Value.Shows store) (Env.Shows store) object shown then
      some h.choose
    else none
  lt_next {tag shown} h := by
    split at h
    · next hshown =>
        obtain ⟨object, hobject, -⟩ := hshown.choose_spec
        exact r.lt_next hobject
    · cases h

theorem Register.carrier_shown {r : Register} {tag : Nat} {object shown : Value ⊕ Env}
    (hobject : r.carrier tag = some object)
    (hshown : Sum.LiftRel (Value.Shows store) (Env.Shows store) object shown) :
    (r.shown store).carrier tag = some shown := by
  have hexists : ∃ shown object, r.carrier tag = some object ∧
      Sum.LiftRel (Value.Shows store) (Env.Shows store) object shown :=
    ⟨shown, object, hobject, hshown⟩
  refine (dif_pos hexists).trans (congrArg some ?_)
  obtain ⟨object', hobject', hshown'⟩ := hexists.choose_spec
  cases hobject.symm.trans hobject'
  generalize hexists.choose = shown' at hshown'
  cases hshown with
  | inl h =>
      cases hshown' with
      | inl h' => rw [h.unique h']
  | inr h =>
      cases hshown' with
      | inr h' => rw [h.unique h']

mutual
/-- What recorded data show is listed. -/
theorem Value.Shows.listed {r : Ledger} (hr : r.Covers store) {v w : Value} :
    v.Shows store w → v.Recorded r → w.Listed (r.shown store)
  | .atom h, _ => h.listed
  | .closure henv, hv => by
      simp only [Value.Recorded] at hv
      simp only [Value.Listed]
      exact ⟨Register.carrier_shown hv.1 (.inl (.closure henv)), henv.listed hr hv.2⟩
  | .cons hhead htail hlist, hv => by
      simp only [Value.Recorded] at hv
      simp only [Value.Listed]
      exact ⟨Register.carrier_shown hv.1 (.inl (.cons hhead htail hlist)),
        hhead.listed hr hv.2.1, htail.listed hr hv.2.2⟩

theorem Thunk.Shows.listed {r : Ledger} (hr : r.Covers store) {x y : Thunk} :
    x.Shows store y → x.Recorded r → y.Listed (r.shown store)
  | .ready h, hx => by
      simp only [Thunk.Recorded] at hx
      simp only [Thunk.Listed]
      exact h.listed hr hx
  | .kept hkept h, hx => by
      simp only [Thunk.Recorded] at hx
      simp only [Thunk.Listed]
      exact h.listed hr (hr.kept hx.1 hkept)

theorem Env.Shows.listed {r : Ledger} (hr : r.Covers store) {ρ ρ' : Env} :
    ρ.Shows store ρ' → ρ.Recorded r → ρ'.Listed (r.shown store)
  | .empty, _ => by simp only [Env.Listed]
  | .frame hbound hrest, hρ => by
      simp only [Env.Recorded] at hρ
      simp only [Env.Listed]
      exact ⟨Register.carrier_shown hρ.1 (.inr (.frame hbound hrest)),
        hbound.listed hr hρ.2.1, hrest.listed hr hρ.2.2⟩
end

/-- Comparing recorded, evaluated values tells whether what they show looks the same. -/
theorem equal_of_shows {r : Ledger} (hr : r.Covers store) {a b a' b' : Value}
    (ha : a.Shows store a') (hb : b.Shows store b') (harecorded : a.Recorded r)
    (hbrecorded : b.Recorded r) (ev : Evaluator) {s : State} (hs : s.store = store) {fuel : Nat}
    (hfuel : totalWeight [.values a' b'] < fuel) :
    equal ev fuel a b s = .ok (a'.alike b') s := by
  have heval : ∀ c ∈ [Comparison.values a' b'], c.IsEvaluated := by
    simpa [Comparison.IsEvaluated] using ⟨ha.isEvaluated, hb.isEvaluated⟩
  have hlisted : ∀ c ∈ [Comparison.values a' b'], c.Listed (r.shown store) := by
    simpa [Comparison.Listed] using ⟨ha.listed hr harecorded, hb.listed hr hbrecorded⟩
  rw [equal, compareAll_of_shows ev hs fuel (.cons (.values ha hb) .nil),
    compareAll_eq_alike heval hlisted ev fuel hfuel]
  simp only [List.all_cons, List.all_nil, Bool.and_true, Comparison.alike]
  rfl

/-- Over a store in which no two things carry one tag, comparing evaluated values tells whether what
they show looks the same. -/
theorem Value.Shows.equates {r : Ledger} (hr : r.Covers store) {a b a' b' : Value}
    (ha : a.Shows store a') (hb : b.Shows store b') (harecorded : a.Recorded r)
    (hbrecorded : b.Recorded r) : store.Equates a b (a'.alike b') := by
  refine ⟨totalWeight [.values a' b'] + 1, fun fuel hfuel => ?_⟩
  exact Eval.report_result_eq_ok.2
    ⟨_, equal_of_shows hr ha hb harecorded hbrecorded (eval fuel) rfl hfuel⟩

end

/-! ## Sessions -/

namespace Session

/-- The value is in a slot of the session, and it is evaluated. -/
def Evaluated (s : Session) (v : Value) : Prop :=
  (∃ slot, s.slot? slot = some v) ∧ v.IsEvaluatedIn s.store

/-- Equality is structural equality.

Whenever the plain comparison of two kept values, lazy or not, comes to a verdict, so does the
comparison that stops at identity, if there is no limit on the nesting.  The values may come from
one session, or from two sessions with policies of their own.  Comparing evaluated values always
comes to a verdict, and the verdicts are those of an equivalence. -/
theorem equals_decides_equality :
    (∀ {ι : Type} [DecidableEq ι] {ss : ι → Session}, Abreast ss → ∀ {i j : ι}
      {left right : String} {a b : Value} {t : Bool}, (ss i).slot? left = some a →
        (ss j).slot? right = some b → (ss i).store.EquatesPlainly a b t →
          (ss i).store.Equates a b t) ∧
    ∀ {s : Session}, s.Reached →
      (∀ {a b}, s.Evaluated a → s.Evaluated b → ∃ t, s.store.Equates a b t) ∧
      (∀ {a}, s.Evaluated a → s.store.Equates a a true) ∧
      (∀ {a b t}, s.Evaluated a → s.Evaluated b → s.store.Equates a b t →
        s.store.Equates b a t) ∧
      ∀ {a b c}, s.Evaluated a → s.Evaluated b → s.Evaluated c → s.store.Equates a b true →
        s.store.Equates b c true → s.store.Equates a c true := by
  refine ⟨?_, ?_⟩
  · intro ι _ ss h i j left right a b t ha hb hplain
    exact h.equates_of_plain ha hb hplain
  intro s h
  -- Every law is one of looking alike, applied to what the values show.
  obtain ⟨r, hrecorded⟩ := h.exists_ledger
  have hequates : ∀ {a b a' b' : Value}, (∃ slot, s.slot? slot = some a) →
      (∃ slot, s.slot? slot = some b) → a.Shows s.store a' → b.Shows s.store b' →
      s.store.Equates a b (a'.alike b') := by
    rintro a b a' b' ⟨slot, ha⟩ ⟨slot', hb⟩ hashows hbshows
    exact hashows.equates hrecorded.store hbshows (hrecorded.slots ha) (hrecorded.slots hb)
  refine ⟨?_, ?_, ?_, ?_⟩
  · rintro a b ⟨ha, a', hashows⟩ ⟨hb, b', hbshows⟩
    exact ⟨_, hequates ha hb hashows hbshows⟩
  · rintro a ⟨ha, a', hashows⟩
    have hself : a'.alike a' = true := Value.alike_self hashows.isEvaluated
    exact hself ▸ hequates ha ha hashows hashows
  · rintro a b t ⟨ha, a', hashows⟩ ⟨hb, b', hbshows⟩ hverdict
    obtain rfl := hverdict.unique (hequates ha hb hashows hbshows)
    rw [Value.alike_comm a' b']
    exact hequates hb ha hbshows hashows
  · rintro a b c ⟨ha, a', hashows⟩ ⟨hb, b', hbshows⟩ ⟨hc, c', hcshows⟩ hfirst hsecond
    have hfirst := hfirst.unique (hequates ha hb hashows hbshows)
    have hsecond := hsecond.unique (hequates hb hc hbshows hcshows)
    have hboth : a'.alike c' = true := Value.alike_trans b' hfirst.symm hsecond.symm
    exact hboth ▸ hequates ha hc hashows hcshows

/-- The list `cons(map x to x, null)` is made twice over one store, lazily and eagerly, and compared
while the parts of the lazy one are still unknown; the eager one is compared with itself. -/
theorem equals_decides_equality_lazy_eager :
    let place : Place := ⟨0, ⟨0, 0⟩⟩
    let lambda : Lambda := ⟨place, [⟨⟨1, "x"⟩, ⟨0, 0⟩⟩], .ident place ⟨1, "x"⟩⟩
    let ask : Request :=
      .evaluate (.call place (.prim place .cons) [lambda.expr, .null place]) (some "list")
    let config (d : Discipline) : Config := ⟨⟨⟨d, d⟩, none⟩, 9⟩
    let started (lazily : Bool) : Session := start (config (if lazily then .need else .value)) true
    let ss := turn (turn started true 9 ask) false 9 ask
    let delayed (e : Expr) : Suspension := ⟨(config .need).setting, .empty, e⟩
    let a : Value := .cons 0 (.byNeed 0 (delayed lambda.expr)) (.byNeed 1 (delayed (.null place)))
    let b (tag : Nat) : Value := .cons (tag + 1) (.ready (.closure tag lambda .empty)) (.ready .nil)
    let s := ((started false).perform 9 ask).1
    (ss true).slot? "list" = some a ∧ (ss false).slot? "list" = some (b 1) ∧
      (ss true).store.Equates a (b 1) true ∧ s.Evaluated (b 0) ∧
        s.store.Equates (b 0) (b 0) true := by
  intro place lambda ask config started ss delayed a b s
  have hlimit : ∀ lazily, (started lazily).config.setting.maxDepth = none := by
    intro lazily
    cases lazily <;> rfl
  have habreast : Abreast ss := by
    refine .perform (.perform (.start (fun _ => true) hlimit) (by simp [ask]) ?_) (by simp [ask]) ?_
    · exact Reply.ne_outOfFuel_of_isEnd (by decide +kernel)
    · exact Reply.ne_outOfFuel_of_isEnd (by decide +kernel)
  have ha : (ss true).slot? "list" = some a := by with_unfolding_all rfl
  have hb : (ss false).slot? "list" = some (b 1) := by with_unfolding_all rfl
  have hplain : (ss true).store.EquatesPlainly a (b 1) true := ⟨9, 9, by with_unfolding_all rfl⟩
  have hevaluated : s.Evaluated (b 0) := by
    refine ⟨⟨"list", by with_unfolding_all rfl⟩, b 0, Value.IsEvaluated.shows ?_⟩
    simp [b, Value.IsEvaluated, Thunk.IsEvaluated, Env.IsEvaluated, Value.isList]
  exact ⟨ha, hb, equals_decides_equality.1 habreast ha hb hplain, hevaluated,
    (equals_decides_equality.2 (.perform (.start _ _) 9 ask)).2.1 hevaluated⟩

end Session

end PolicyEval
