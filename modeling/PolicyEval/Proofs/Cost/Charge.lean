import PolicyEval.Proofs.Cost.Bill
import PolicyEval.Proofs.Sharing.Completeness

/-!
# What an evaluation is charged is on the bill of the account

An evaluation that shares exactly what the account shares is charged for nothing that is not on the
bill of the account: what the plan is charged of its own, at the same requests, and items, each at
most once.  For when a thunk is evaluated it has no result yet, and when that is done it has one.

This holds however the evaluation ends.  Under a limit, or with too little fuel, it may stop early,
and then it was charged for a part of the bill.

* `Matching.Settled`, `Matching.Pending` — whether the store keeps a result for an item.
* `Charges` — a toll that a sum and pending items add up to.
* `charges_of_bills` — the toll of a plan is at most its bill.
* `program_charges` — so is the toll of a program.
-/

namespace PolicyEval

/-- The store keeps a result for the item. -/
def Matching.Settled (W : Matching) (s : State) (item : Item) : Prop :=
  ∃ address v, W.cell address = some (item.mark, item.body) ∧ s.store.kept? address = some v

/-- The store does not keep a result for the item. -/
def Matching.Pending (W : Matching) (s : State) (item : Item) : Prop :=
  ∀ address, W.cell address = some (item.mark, item.body) → s.store.kept? address = none

/-- The toll is at most the sum and the prices of some items, which are on the bill, have their
marks in the zone and are pending.  If the computation succeeds these items are settled, and the
state can be followed from there. -/
def Charges (setting : Setting) (X : Seed → Prop) (W : Matching) (s : State) {α : Type}
    (result : EStateM.Result Stop State α) (toll t : Nat) (D : Set Item)
    (good : Matching → α → State → Prop) : Prop :=
  ∃ items : Finset Item,
    (∀ item ∈ items, item ∈ D ∧ X (Seed.ofCode item.mark) ∧ W.Pending s item) ∧
      toll ≤ t + Item.total items ∧
        ∀ a s', result = .ok a s' → ∃ W', good W' a s' ∧ Reaches (.same setting) X W s W' s' ∧
          ∀ item ∈ items, W'.Settled s' item

section

variable {g : Gauge} {setting : Setting} {X Y : Seed → Prop} {W W' : Matching} {s s' : State}
  {σ : Seed} {k : Nat} {α β : Type} {t t' : Nat} {D D' : Set Item}

theorem Matching.Settled.mono {P : Pairing} {item : Item} (h : W.Settled s item)
    (hreaches : Reaches P X W s W' s') : W'.Settled s' item := by
  obtain ⟨address, v, hcell, hkept⟩ := h
  exact ⟨address, v, hreaches.grows.le.cell hcell, hreaches.kept hkept⟩

theorem Matching.Pending.earlier {P : Pairing} {item : Item} (h : W'.Pending s' item)
    (hreaches : Reaches P X W s W' s') : W.Pending s item := by
  intro address hcell
  cases hkept : s.store.kept? address with
  | none => rfl
  | some v =>
      have hnone := h address (hreaches.grows.le.cell hcell)
      rw [hreaches.kept hkept] at hnone
      cases hnone

theorem Matching.Pending.not_settled {item : Item} (h : W.Pending s item) :
    ¬W.Settled s item := by
  rintro ⟨address, v, hcell, hkept⟩
  rw [h address hcell] at hkept
  cases hkept

namespace Charges

variable {good good' : Matching → α → State → Prop}

/-- A computation that is not charged. -/
theorem free {result : EStateM.Result Stop State α}
    (h : ∀ a s', result = .ok a s' → ∃ W', good W' a s' ∧ Reaches (.same setting) X W s W' s') :
    Charges setting X W s result 0 t D good := by
  refine ⟨∅, by simp, Nat.zero_le _, fun a s' hok => ?_⟩
  obtain ⟨W', hgood, hreaches⟩ := h a s' hok
  exact ⟨W', hgood, hreaches, by simp⟩

/-- What was counted before has no effect. -/
theorem recount {result : EStateM.Result Stop State α} {toll : Nat} {c : Counters}
    (h : Charges setting X W { s with counters := c } result toll t D good) :
    Charges setting X W s result toll t D good := by
  obtain ⟨items, hitems, hle, hok⟩ := h
  refine ⟨items, hitems, hle, fun a s' hresult => ?_⟩
  obtain ⟨W', hgood, hreaches, hsettled⟩ := hok a s' hresult
  exact ⟨W', hgood, ⟨hreaches.grows, hreaches.placed, hreaches.kept, hreaches.depth⟩, hsettled⟩

/-- One more count on both sides. -/
theorem count {result : EStateM.Result Stop State α} {toll : Nat}
    (h : Charges setting X W s result toll t D good) (n : Nat) :
    Charges setting X W s result (n + toll) (n + t) D good := by
  obtain ⟨items, hitems, hle, hok⟩ := h
  exact ⟨items, hitems, by omega, hok⟩

/-- What is charged in a part of the zone is charged in the whole zone. -/
theorem widen {result : EStateM.Result Stop State α} {toll : Nat}
    (h : Charges setting Y W s result toll t D good) (hYX : ∀ υ, Y υ → X υ)
    (hgood : ∀ W' a s', good W' a s' → Reaches (.same setting) Y W s W' s' →
      good' W' a s' ∧ Reaches (.same setting) X W s W' s') :
    Charges setting X W s result toll t D good' := by
  obtain ⟨items, hitems, hle, hok⟩ := h
  refine ⟨items, fun item hitem => ?_, hle, fun a s' hresult => ?_⟩
  · obtain ⟨hbill, hY, hpending⟩ := hitems item hitem
    exact ⟨hbill, hYX _ hY, hpending⟩
  · obtain ⟨W', hW', hreaches, hsettled⟩ := hok a s' hresult
    obtain ⟨hgood, hreaches⟩ := hgood W' a s' hW' hreaches
    exact ⟨W', hgood, hreaches, hsettled⟩

/-- What is charged later was pending before. -/
theorem since {result : EStateM.Result Stop State α} {toll : Nat}
    (h : Charges setting X W' s' result toll t D good)
    (hreaches : Reaches (.same setting) X W s W' s') :
    Charges setting X W s result toll t D good := by
  obtain ⟨items, hitems, hle, hok⟩ := h
  refine ⟨items, fun item hitem => ?_, hle, fun a s'' hresult => ?_⟩
  · obtain ⟨hbill, hX, hpending⟩ := hitems item hitem
    exact ⟨hbill, hX, hpending.earlier hreaches⟩
  · obtain ⟨W'', hgood, hreaches', hsettled⟩ := hok a s'' hresult
    exact ⟨W'', hgood, hreaches.trans hreaches', hsettled⟩

/-- One computation after another: items that the first one settles are not charged again. -/
theorem bind {first : Eval α} {next : α → Eval β} {toll : Toll} {tollNext : α → Toll}
    {good' : Matching → β → State → Prop}
    (h : Charges setting X W s (first s) (toll s) t D good)
    (hnext : ∀ W₁ a s₁, good W₁ a s₁ → Reaches (.same setting) X W s W₁ s₁ →
      Charges setting X W₁ s₁ (next a s₁) (tollNext a s₁) t' D' good') :
    Charges setting X W s ((first >>= next) s) (toll.andThen first tollNext s) (t + t') (D ∪ D')
      good' := by
  classical
  obtain ⟨items, hitems, hle, hok⟩ := h
  have hlisted : ∀ item ∈ items, item ∈ D ∪ D' ∧ X (Seed.ofCode item.mark) ∧ W.Pending s item :=
    fun item hitem => ⟨.inl (hitems item hitem).1, (hitems item hitem).2⟩
  cases hfirst : first s with
  | error stop s₁ =>
      rw [Eval.bind_of_error hfirst, Toll.andThen_of_error hfirst]
      exact ⟨items, hlisted, by omega, by simp⟩
  | ok a s₁ =>
      obtain ⟨W₁, hgood, hreaches, hsettled⟩ := hok a s₁ hfirst
      obtain ⟨items', hitems', hle', hok'⟩ := hnext W₁ a s₁ hgood hreaches
      rw [Eval.bind_of_ok hfirst, Toll.andThen_of_ok hfirst]
      refine ⟨items ∪ items', fun item hitem => ?_, ?_, fun b s₂ hresult => ?_⟩
      · rcases Finset.mem_union.1 hitem with hitem | hitem
        · exact hlisted item hitem
        · obtain ⟨hbill, hX, hpending⟩ := hitems' item hitem
          exact ⟨.inr hbill, hX, hpending.earlier hreaches⟩
      · -- The first computation settled its items, so none of them is pending for the second.
        have hdisjoint : Disjoint items items' :=
          Finset.disjoint_left.2 fun item hitem hitem' =>
            (hitems' item hitem').2.2.not_settled (hsettled item hitem)
        rw [Item.total_union hdisjoint]
        omega
      · obtain ⟨W₂, hgood', hreaches', hsettled'⟩ := hok' b s₂ hresult
        refine ⟨W₂, hgood', hreaches.trans hreaches', fun item hitem => ?_⟩
        rcases Finset.mem_union.1 hitem with hitem | hitem
        · exact (hsettled item hitem).mono hreaches'
        · exact hsettled' item hitem

end Charges

/-- Whatever plan is related to the given one, in whatever zone and with whatever fuel, has a toll
that is on the given bill. -/
def ChargedAs (setting : Setting) (g : Gauge) {α : Type} (σ : Seed) (k : Nat) (p : Plan α) (a : α)
    (t : Nat) (D : Set Item) : Prop :=
  ∀ {X : Seed → Prop} {β : Type} {post : (followKinship setting X).World → α → β → Prop}
    {W : (followKinship setting X).World} {q : Plan β} {s : State},
    Plan.Related (followKinship setting X) post W p q → Poised setting X W s σ k → ∀ n m,
      Charges setting X W s (q.run (eval n) m s) (q.tollWith g n m s) t D fun W' a' _ =>
        post W' a a'

/-- Evaluating an expression is charged as its plan is, one level deeper. -/
theorem eval_charges {ρ ρ' : Env} {e : Expr} {v : Value}
    (hv : ChargedAs setting g σ 0 (e.entry setting ρ) v t D)
    (henv : ρ'.Mirrors (.same setting) W ρ ∧ ρ.Within X) (hs : Poised setting X W s σ 0) (n : Nat) :
    Charges setting X W s (eval n setting ρ' e s) (evalToll g n setting ρ' e s) t D
      fun W' v' _ => v'.Mirrors (.same setting) W' v ∧ v.Within X := by
  cases n with
  | zero => exact .free fun a s' hok => by cases hok
  | succ n =>
      by_cases hroom : s.depth.HasRoom setting.maxDepth
      · have hrel : Plan.Related (followKinship setting X) (followKinship setting X).value W
            (e.entry setting ρ) (.count Counters.countExpression (e.plan setting ρ')) :=
          .count (Kinship.plan_related (K := followKinship setting X) henv e)
        obtain ⟨items, hitems, hle, hok⟩ := hv (s := { s with depth := s.depth.deeper }) hrel
          ⟨hs.zone, hs.placed, hs.fresh⟩ n n
        rw [evalToll_of_hasRoom g hroom, eval_succ]
        refine ⟨items, hitems, hle, fun v' s' hresult => ?_⟩
        obtain ⟨-, s₁, hbody, rfl⟩ := Eval.within_eq_ok.1 hresult
        obtain ⟨W', hvalue, hreaches, hsettled⟩ := hok v' s₁ hbody
        refine ⟨W', hvalue, ⟨hreaches.grows, hreaches.placed, hreaches.kept, ?_⟩, hsettled⟩
        have hdepth : s₁.depth.current = s.depth.current + 1 := hreaches.depth
        simp only [Depth.leave, hdepth, Nat.add_sub_cancel]
      · -- Without room for the level nothing is done and nothing is charged.
        have henter : ∃ limit, s.depth.enter setting.maxDepth = .error limit := by
          cases h : s.depth.enter setting.maxDepth with
          | error limit => exact ⟨limit, rfl⟩
          | ok depth => exact absurd (Depth.enter_eq_ok.1 h).1 hroom
        obtain ⟨limit, henter⟩ := henter
        have htoll : evalToll g (n + 1) setting ρ' e s = 0 := by simp only [evalToll, henter]
        rw [htoll, eval_succ]
        refine .free fun v' s' hresult => ?_
        exact absurd (Eval.within_eq_ok.1 hresult).1 hroom

/-- Running a suspended expression is charged as evaluating it is, with one more count. -/
theorem suspension_charges {ρ ρ' : Env} {e : Expr} {v : Value}
    (hv : ChargedAs setting g σ 0 (e.entry setting ρ) v t D)
    (henv : ρ'.Mirrors (.same setting) W ρ ∧ ρ.Within X) (hs : Poised setting X W s σ 0) (n : Nat) :
    Charges setting X W s (Suspension.run (eval n) ⟨setting, ρ', e⟩ s)
      (Suspension.toll g (evalToll g n) ⟨setting, ρ', e⟩ s) (g.fee + t) D
      fun W' v' _ => v'.Mirrors (.same setting) W' v ∧ v.Within X := by
  let s₁ : State := { s with counters := s.counters.countForced }
  have hcharges := eval_charges (s := s₁) hv henv ⟨hs.zone, hs.placed, hs.fresh⟩ n
  exact (hcharges.count g.fee).recount

/-- What a request leads to: a value that mirrors the one of the account, and a state in which the
plan can go on. -/
def Resumes (setting : Setting) (X : Seed → Prop) (σ : Seed) (k : Nat) (v : Value) (W' : Matching)
    (v' : Value) (s' : State) : Prop :=
  (v'.Mirrors (.same setting) W' v ∧ v.Within X) ∧ Poised setting X W' s' σ (k + 1)

namespace Poised

variable (h : Poised setting X W s σ k)
include h

/-- What is charged in the part of the zone that belongs to the next request. -/
theorem widen {result : EStateM.Result Stop State Value} {toll : Nat} {v : Value}
    (hcharges : Charges setting (Seed.inner X σ k (σ ++ [k])) W s result toll t D
      fun W' v' _ => v'.Mirrors (.same setting) W' v ∧
        v.Within (Seed.inner X σ k (σ ++ [k]))) :
    Charges setting X W s result toll t D (Resumes setting X σ k v) := by
  refine hcharges.widen (fun _ hυ => hυ.1) fun W' v' s' hv hreaches => ?_
  obtain ⟨hwide, hpoised⟩ := h.resume hreaches
  exact ⟨⟨⟨hv.1, hv.2.mono fun _ hυ => hυ.1⟩, hpoised⟩, hwide⟩

/-- The expression of the next request is charged as its plan is. -/
theorem eval_charges {ρ ρ' : Env} {e : Expr} {v : Value}
    (hv : ChargedAs setting g (σ ++ [k]) 0 (e.entry setting ρ) v t D)
    (henv : ρ'.Mirrors (.same setting) W ρ ∧ ρ.Within X) (n : Nat) :
    Charges setting X W s (eval n setting ρ' e s) (evalToll g n setting ρ' e s) t D
      (Resumes setting X σ k v) :=
  h.widen (PolicyEval.eval_charges hv (h.env_request henv) h.request n)

/-- Forcing a thunk that is evaluated at every use is charged as the plan of its expression is. -/
theorem name_charges {ρ ρ' : Env} {e : Expr} {v : Value}
    (hv : ChargedAs setting g (σ ++ [k]) 0 (e.entry setting ρ) v t D)
    (henv : ρ'.Mirrors (.same setting) W ρ ∧ ρ.Within X) (n : Nat) :
    Charges setting X W s (force (eval n) (.byName ⟨setting, ρ', e⟩) s)
      (forceToll g (evalToll g n) (.byName ⟨setting, ρ', e⟩) s) (g.fee + t) D
      (Resumes setting X σ k v) :=
  h.widen (suspension_charges hv (h.env_request henv) h.request n)

/-- Forcing a thunk that is evaluated once is charged as an item of the bill, unless it was
evaluated before. -/
theorem need_charges {address mark : Nat} {ρ ρ' : Env} {e : Expr} {v : Value}
    (hbill : Bills g (Seed.ofCode mark) 0 (e.entry setting ρ) v t D)
    (hv : ChargedAs setting g (Seed.ofCode mark) 0 (e.entry setting ρ) v t D)
    (hcell : W.cell address = some (mark, ⟨setting, ρ, e⟩)) (hmark : X (Seed.ofCode mark))
    (henv : ρ'.Mirrors (.same setting) W ρ ∧ ρ.Within X) (n : Nat) :
    Charges setting X W s (force (eval n) (.byNeed address ⟨setting, ρ', e⟩) s)
      (forceToll g (evalToll g n) (.byNeed address ⟨setting, ρ', e⟩) s) 0
      (insert ⟨mark, ⟨setting, ρ, e⟩, g.fee + t⟩ D) (Resumes setting X σ k v) := by
  classical
  have hyields := hbill.yields.of_entry
  have hvX := h.result_within hyields hmark henv.2
  cases hkept : s.store.kept? address with
  | some u =>
      rw [Eval.force_of_kept hkept, forceToll_of_kept g _ hkept]
      refine .free fun u' s' hresult => ?_
      cases hresult
      obtain ⟨hreaches, hpoised⟩ := h.stay
      exact ⟨W, ⟨⟨h.kept_mirrors hcell hyields hkept, hvX⟩, hpoised⟩, hreaches⟩
  | none =>
      have hthunk := h.thunk hcell hmark hkept
      rw [Eval.force_of_pending hkept, forceToll_of_pending g _ hkept]
      obtain ⟨items, hitems, hle, hok⟩ :=
        suspension_charges hv (h.env_thunk hcell henv) hthunk n
      let item : Item := ⟨mark, ⟨setting, ρ, e⟩, g.fee + t⟩
      have hpending : W.Pending s item := by
        intro address' hcell'
        rwa [h.placed.faithful.cell_inj hcell' hcell rfl]
      -- While the thunk is evaluated its own mark is out of bounds, so it is not charged twice.
      have hnew : item ∉ items := fun hitem => hthunk.zone.avoids (hitems item hitem).2.1
      refine ⟨insert item items, fun i hi => ?_, ?_, fun u' s' hresult => ?_⟩
      · rcases Finset.mem_insert.1 hi with rfl | hi
        · exact ⟨.inl rfl, hmark, hpending⟩
        · obtain ⟨hD, hX, hi⟩ := hitems i hi
          exact ⟨.inr hD, hX.1, hi⟩
      · have hprice : item.price = g.fee + t := rfl
        rw [Item.total_insert hnew, hprice]
        omega
      · obtain ⟨u, s₁, hrun, hkeep⟩ := Eval.bind_eq_ok.1 hresult
        obtain ⟨W', ⟨hu, -⟩, hreaches, hsettled⟩ := hok u s₁ hrun
        obtain ⟨u₁, s₂, hkept₂, hu₁, hcontinues, ⟨w, hw⟩, hmore⟩ :=
          h.keep_result hcell hyields hu hreaches
        rw [hkept₂] at hkeep
        cases hkeep
        refine ⟨W', ⟨⟨hu₁, hvX⟩, hcontinues.2⟩, hcontinues.1, fun i hi => ?_⟩
        rcases Finset.mem_insert.1 hi with rfl | hi
        · exact ⟨address, w, hreaches.grows.le.cell hcell, hw⟩
        · obtain ⟨address', w', hcell', hw'⟩ := hsettled i hi
          exact ⟨address', w', hcell', hmore hw'⟩

/-- Delaying an expression that is evaluated at once is charged as its plan is. -/
theorem delay_charges {ρ ρ' : Env} {e : Expr} {v : Value}
    (hv : ChargedAs setting g (σ ++ [k]) 0 (e.entry setting ρ) v t D)
    (henv : ρ'.Mirrors (.same setting) W ρ ∧ ρ.Within X) (n : Nat) :
    Charges setting X W s (delay (eval n) .value setting ρ' e s)
      (delayToll (evalToll g n) .value setting ρ' e s) t D
      fun W' x s' => ∃ v', x = .ready v' ∧ Resumes setting X σ k v W' v' s' := by
  obtain ⟨items, hitems, hle, hok⟩ := h.eval_charges hv henv n
  refine ⟨items, hitems, hle, fun x s' hresult => ?_⟩
  obtain ⟨v', s₁, heval, hpure⟩ := Eval.bind_eq_ok.1 hresult
  cases hpure
  obtain ⟨W', hresumes, hreaches, hsettled⟩ := hok v' s' heval
  exact ⟨W', ⟨v', rfl, hresumes⟩, hreaches, hsettled⟩

/-- The comparisons of the next request are charged as their first step is. -/
theorem compare_charges {todo todo' : List Comparison} {b : Bool}
    (hb : ChargedAs setting g (σ ++ [k]) 0 (stepPlan Comparison.coincides todo) b t D)
    (htodo : (followKinship setting X).todo W todo todo') (n m : Nat) :
    Charges setting X W s (compareAll (eval n) m todo' s)
      (compareToll g (eval n) (evalToll g n) m todo' s) t D
      fun W' b' s' => b' = b ∧ Poised setting X W' s' σ (k + 1) := by
  cases m with
  | zero => exact .free fun b' s' hok => by cases hok
  | succ m =>
      have hstep : Plan.Related (followKinship setting (Seed.inner X σ k (σ ++ [k])))
          (fun _ => Eq) W (stepPlan Comparison.coincides todo)
          (stepPlan Comparison.identical todo') :=
        stepPlan_related h.placed.faithful (h.todo_request htodo)
      rw [compareAll_succ]
      refine (hb hstep h.request n m).widen (fun _ hυ => hυ.1) fun W' b' s' hb' hreaches => ?_
      obtain ⟨hwide, hpoised⟩ := h.resume hreaches
      exact ⟨⟨hb'.symm, hpoised⟩, hwide⟩

end Poised

/-! ## Plans -/

/-- After a request that is free, the rest of the plan is charged. -/
theorem ChargedAs.continue {p : Plan α} {q : Plan β} {a : α}
    {post : (followKinship setting X).World → α → β → Prop} {s₁ : State} {W₁ : Matching}
    (h : ChargedAs setting g σ (k + 1) p a t D) (hs : Continues setting X W s σ k W₁ s₁)
    (hrel : Plan.Related (followKinship setting X) post W₁ p q) (n m : Nat) :
    Charges setting X W s (q.run (eval n) m s₁) (q.tollWith g n m s₁) t D fun W' a' _ =>
      post W' a a' :=
  (h hrel hs.2 n m).since hs.1

/-- The toll of a plan is at most the bill of a related plan. -/
theorem charges_of_bills {p : Plan α} {a : α} (h : Bills g σ k p a t D) :
    ChargedAs setting g σ k p a t D := by
  -- The induction is on how the account comes to its bill.  In each case the related plan makes the
  -- same request, which is charged in a part of the zone of its own.
  induction h with
  | done =>
      intro X β post W q s hrel hs n m
      cases hrel with
      | done hpost =>
          refine .free fun a' s' hresult => ?_
          cases hresult
          exact ⟨W, hpost, .refl hs.placed⟩
  | @count _ _ _ step _ _ _ _ _ ih =>
      intro X β post W q s hrel hs n m
      cases hrel with
      | @count _ _ _ q hrel =>
          let s₁ : State := { s with counters := step s.counters }
          have hcharges := ih (s := s₁) hrel ⟨hs.zone, hs.placed, hs.fresh⟩ n m
          exact (hcharges.count (g.weight step)).recount
  | eval _ _ ihv ih =>
      intro X β post W q s hrel hs n m
      cases hrel with
      | eval henv hnext =>
          refine (hs.eval_charges ihv henv n).bind fun W₁ v' s₁ hv hreaches => ?_
          exact ih (hnext W₁ hreaches.grows.le _ _ hv.1) hv.2 n m
  | ready _ ih =>
      intro X β post W q s hrel hs n m
      cases hrel with
      | force hthunk hnext =>
          obtain ⟨hmirrors, hwithin⟩ := hthunk
          cases hmirrors with
          | ready hv =>
              rw [Plan.tollWith_force rfl, forceToll, Nat.zero_add]
              exact ih.continue hs.stay (hnext W (.refl W) _ _ ⟨hv, hwithin⟩) n m
  | byName _ _ ihv ih =>
      intro X β post W q s hrel hs n m
      cases hrel with
      | force hthunk hnext =>
          obtain ⟨hmirrors, hwithin⟩ := hthunk
          cases hmirrors with
          | byName henv =>
              refine (hs.name_charges ihv ⟨henv, hwithin⟩ n).bind fun W₁ v' s₁ hv hreaches => ?_
              exact ih (hnext W₁ hreaches.grows.le _ _ hv.1) hv.2 n m
  | @byNeed _ _ _ _ _ _ _ _ _ _ t t' _ _ hbill _ ihv ih =>
      intro X β post W q s hrel hs n m
      cases hrel with
      | force hthunk hnext =>
          obtain ⟨hmirrors, hwithin⟩ := hthunk
          cases hmirrors with
          | rerun hreruns => exact hreruns.elim
          | byNeed hcell henv =>
              have hcharges := hs.need_charges hbill ihv hcell hwithin.1 ⟨henv, hwithin.2⟩ n
              rw [← Nat.zero_add t']
              refine hcharges.bind fun W₁ v' s₁ hv hreaches => ?_
              exact ih (hnext W₁ hreaches.grows.le _ _ hv.1) hv.2 n m
  | @delayValue _ _ _ S _ _ _ _ _ _ _ _ _ _ _ ihv ih =>
      intro X β post W q s hrel hs n m
      obtain ⟨axis, ρ', next', -, haxis, hsetting, henv, rfl, hnext⟩ := hrel.delay_inv
      obtain rfl : setting = S := hsetting.symm
      rw [show axis (followKinship setting X).right.policy = .value from haxis.symm]
      refine (hs.delay_charges ihv henv n).bind ?_
      rintro W₁ x s₁ ⟨v', rfl, hv, hs₁⟩ hreaches
      exact ih (hnext W₁ hreaches.grows.le _ _ ⟨.ready hv.1, hv.2⟩) hs₁ n m
  | @delayName _ _ _ S _ _ _ _ _ _ _ ih =>
      intro X β post W q s hrel hs n m
      obtain ⟨axis, ρ', next', -, haxis, hsetting, henv, rfl, hnext⟩ := hrel.delay_inv
      obtain rfl : setting = S := hsetting.symm
      rw [show axis (followKinship setting X).right.policy = .name from haxis.symm,
        Plan.tollWith_delay rfl, delayToll, Nat.zero_add]
      exact ih.continue hs.stay (hnext W (.refl W) _ _ ⟨.byName henv.1, henv.2⟩) n m
  | @delayNeed _ _ _ S _ e _ _ _ _ _ ih =>
      intro X β post W q s hrel hs n m
      obtain ⟨axis, ρ', next', -, haxis, hsetting, henv, rfl, hnext⟩ := hrel.delay_inv
      obtain rfl : setting = S := hsetting.symm
      rw [show axis (followKinship setting X).right.policy = .need from haxis.symm,
        Plan.tollWith_delay rfl, delayToll, Nat.zero_add]
      obtain ⟨hthunk, hs₁⟩ := hs.byNeed henv e
      exact ih.continue hs₁ (hnext _ hs₁.1.grows.le _ _ hthunk) n m
  | cell _ ih =>
      intro X β post W q s hrel hs n m
      cases hrel with
      | cell hhead htail _ hnext =>
          obtain ⟨hv, hs₁⟩ := hs.cons hhead htail
          exact ih.continue hs₁ (hnext _ hs₁.1.grows.le _ _ hv) n m
  | @closure _ _ _ lambda _ _ _ _ _ _ ih =>
      intro X β post W q s hrel hs n m
      cases hrel with
      | closure henv hnext =>
          obtain ⟨hv, hs₁⟩ := hs.closure lambda henv
          exact ih.continue hs₁ (hnext _ hs₁.1.grows.le _ _ hv) n m
  | extend _ ih =>
      intro X β post W q s hrel hs n m
      cases hrel with
      | extend henv hbs hnext =>
          obtain ⟨hinner, hs₁⟩ := hs.frames henv hbs
          exact ih.continue hs₁ (hnext _ hs₁.1.grows.le _ _ hinner) n m
  | compare _ _ ihb ih =>
      intro X β post W q s hrel hs n m
      cases hrel with
      | compare htodo hnext =>
          refine (hs.compare_charges ihb htodo n m).bind ?_
          rintro W₁ b' s₁ ⟨rfl, hs₁⟩ hreaches
          exact ih (hnext W₁ hreaches.grows.le b') hs₁ n m

/-- The toll of a program is at most its bill, whatever its fuel and its limit. -/
theorem program_charges {printDepth : Nat} {root : Expr} {text : String}
    (h : Bills g [] 0 (programPlan ⟨setting, printDepth⟩ root) text t D) (fuel : Nat)
    (store : Store) :
    ∃ items : Finset Item, ↑items ⊆ D ∧
      runToll g fuel ⟨setting, printDepth⟩ root (State.start store) ≤ t + Item.total items := by
  have hrel := (followKinship setting Seed.IsProper).program_related (W := .empty) printDepth root
  have hall : ChargedAs setting g [] 0 _ text t D := charges_of_bills h
  obtain ⟨items, hitems, hle, -⟩ := hall hrel (poised_start setting store) fuel fuel
  exact ⟨items, fun item hitem => (hitems item hitem).1, hle⟩

end

end PolicyEval
