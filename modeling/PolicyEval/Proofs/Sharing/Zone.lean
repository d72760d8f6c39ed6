import PolicyEval.Proofs.Sharing.Account

/-!
# Seeds in use

Every seed marks one thing.  The requests of a plan get seeds below its own, and a thunk that is
evaluated once gets the seeds below its mark, so the seeds that a plan can ever use are those below
its next requests and those below the marks of what it is given.  A zone is a set of seeds that is
closed in this way; zones of evaluations that are under way at the same time lie apart.

* `Seed.Ahead` — the seeds of the requests that a plan is still to make.
* `Seed.Zone` — a set of seeds in which a plan can be followed.
* `Value.Within`, `Thunk.Within`, `Env.Within` — data with all their marks in a set of seeds.
* `Yields.within` — what a plan yields has its marks in the zone of the plan.
-/

namespace PolicyEval

namespace Seed

/-- The seeds of the requests from number `k` on, and those below them. -/
def Ahead (σ : Seed) (k : Nat) (υ : Seed) : Prop := ∃ j, k ≤ j ∧ σ ++ [j] <+: υ

/-- A set of seeds that goes on downwards. -/
def Closed (X : Seed → Prop) : Prop := ∀ υ υ', X υ → υ <+: υ' → X υ'

/-- A set of seeds in which a plan can be followed whose next request has the seed `σ ++ [k]`. -/
structure Zone (X : Seed → Prop) (σ : Seed) (k : Nat) : Prop where
  closed : Closed X
  avoids : ¬X σ
  ahead : ∀ υ, Ahead σ k υ → X υ

variable {X : Seed → Prop} {σ τ υ : Seed} {k : Nat}

theorem ahead_self (σ : Seed) (k : Nat) : Ahead σ k (σ ++ [k]) :=
  ⟨k, Nat.le_refl k, List.prefix_rfl⟩

theorem Ahead.of_succ (h : Ahead σ (k + 1) υ) : Ahead σ k υ := by
  obtain ⟨j, hj, hpre⟩ := h
  exact ⟨j, Nat.le_of_succ_le hj, hpre⟩

/-- Seeds below one request are ahead of the plan that makes it. -/
theorem Ahead.of_below (h : σ ++ [k] <+: υ) : Ahead σ k υ := ⟨k, Nat.le_refl k, h⟩

theorem Ahead.prefix_self (h : Ahead τ k υ) : τ <+: υ := by
  obtain ⟨j, -, hpre⟩ := h
  exact (List.prefix_append τ [j]).trans hpre

theorem Ahead.not_below (h : Ahead τ k υ) : ¬υ <+: τ := by
  intro hpre
  obtain ⟨j, -, hj⟩ := h
  have hlength := (hj.trans hpre).length_le
  rw [List.length_append, List.length_singleton] at hlength
  omega

/-- A seed that is no longer than one of a plan's requests and lies on one line with it is that
request, or lies on the way to the plan. -/
theorem prefix_request (h : υ <+: σ ++ [k]) : υ <+: σ ∨ υ = σ ++ [k] := by
  rcases List.prefix_concat_iff.1 (by simpa using h) with heq | hpre
  · exact .inr (by simpa using heq)
  · exact .inl hpre

/-- Two requests of one plan have no seed in common. -/
theorem not_ahead_of_below (h : σ ++ [k] <+: υ) : ¬Ahead σ (k + 1) υ := by
  rintro ⟨j, hj, hpre⟩
  have hsame : σ ++ [k] = σ ++ [j] :=
    (List.prefix_of_prefix_length_le h hpre (by simp)).eq_of_length (by simp)
  have hk : k = j := by simpa using hsame
  omega

namespace Zone

theorem not_below (h : Zone X σ k) (hυ : X υ) : ¬υ <+: σ :=
  fun hpre => h.avoids (h.closed υ σ hυ hpre)

theorem next (h : Zone X σ k) : Zone X σ (k + 1) :=
  ⟨h.closed, h.avoids, fun υ hυ => h.ahead υ hυ.of_succ⟩

theorem request (h : Zone X σ k) : X (σ ++ [k]) := h.ahead _ (ahead_self σ k)

/-- What lies above a seed ahead, within a zone, is itself ahead. -/
theorem ahead_of_below (h : Zone X σ k) {υ' : Seed} (hυ : X υ) (hpre : υ <+: υ')
    (hahead : Ahead σ k υ') : Ahead σ k υ := by
  obtain ⟨j, hj, hj'⟩ := hahead
  rcases List.prefix_or_prefix_of_prefix hpre hj' with habove | hbelow
  · rcases prefix_request habove with hσ | rfl
    · exact absurd hσ (h.not_below hυ)
    · exact ⟨j, hj, List.prefix_rfl⟩
  · exact ⟨j, hj, hbelow⟩

end Zone

/-- The part of a zone in which the seeds below `τ` can be used while the plan at `σ` waits. -/
def inner (X : Seed → Prop) (σ : Seed) (k : Nat) (τ : Seed) (υ : Seed) : Prop :=
  X υ ∧ ¬υ <+: τ ∧ ¬Ahead σ (k + 1) υ

theorem Zone.narrow (h : Zone X σ k) (hτ : ∀ υ, Ahead τ 0 υ → X υ ∧ ¬Ahead σ (k + 1) υ) :
    Zone (inner X σ k τ) τ 0 where
  closed υ υ' hυ hpre := by
    obtain ⟨hX, hnot, hahead⟩ := hυ
    refine ⟨h.closed υ υ' hX hpre, fun h' => hnot (hpre.trans h'), fun h' => hahead ?_⟩
    exact h.next.ahead_of_below hX hpre h'
  avoids hτ' := hτ'.2.1 List.prefix_rfl
  ahead υ hυ := ⟨(hτ υ hυ).1, hυ.not_below, (hτ υ hυ).2⟩

/-- A request is followed in its own part of the zone. -/
theorem Zone.request_narrow (h : Zone X σ k) : Zone (inner X σ k (σ ++ [k])) (σ ++ [k]) 0 := by
  exact h.narrow fun υ hυ =>
    ⟨h.ahead υ (.of_below hυ.prefix_self), not_ahead_of_below hυ.prefix_self⟩

/-- A thunk whose mark is in the zone is evaluated in its own part of it. -/
theorem Zone.thunk_narrow (h : Zone X σ k) (hτ : X τ) (hfresh : ¬Ahead σ k τ) :
    Zone (inner X σ k τ) τ 0 := by
  refine h.narrow fun υ hυ => ⟨h.closed τ υ hτ hυ.prefix_self, fun hahead => hfresh ?_⟩
  exact h.ahead_of_below hτ hυ.prefix_self hahead.of_succ

end Seed

/-! ## Data with all their marks in a set of seeds -/

mutual
/-- All marks of the value are in the set. -/
def Value.Within (X : Seed → Prop) : Value → Prop
  | .closure tag _ env => X (Seed.ofCode tag) ∧ env.Within X
  | .cons tag head tail => X (Seed.ofCode tag) ∧ head.Within X ∧ tail.Within X
  | _ => True

/-- All marks of the thunk are in the set. -/
def Thunk.Within (X : Seed → Prop) : Thunk → Prop
  | .ready v => v.Within X
  | .byName s => s.Within X
  | .byNeed address s => X (Seed.ofCode address) ∧ s.Within X

/-- All marks of the suspended expression are in the set. -/
def Suspension.Within (X : Seed → Prop) : Suspension → Prop
  | .mk _ env _ => env.Within X

/-- All marks of the environment are in the set. -/
def Env.Within (X : Seed → Prop) : Env → Prop
  | .empty => True
  | .frame tag _ thunk rest => X (Seed.ofCode tag) ∧ thunk.Within X ∧ rest.Within X
end

section

variable {X Y : Seed → Prop} (hXY : ∀ υ, X υ → Y υ)

include hXY

mutual
theorem Value.Within.mono : ∀ {v : Value}, v.Within X → v.Within Y
  | .closure .., h => ⟨hXY _ h.1, Env.Within.mono h.2⟩
  | .cons .., h => ⟨hXY _ h.1, Thunk.Within.mono h.2.1, Thunk.Within.mono h.2.2⟩
  | .int _, _ | .bool _, _ | .prim _, _ | .nil, _ => trivial

theorem Thunk.Within.mono : ∀ {x : Thunk}, x.Within X → x.Within Y
  | .ready _, h => Value.Within.mono h
  | .byName ⟨_, _, _⟩, h => Env.Within.mono h
  | .byNeed _ ⟨_, _, _⟩, h => ⟨hXY _ h.1, Env.Within.mono h.2⟩

theorem Env.Within.mono : ∀ {ρ : Env}, ρ.Within X → ρ.Within Y
  | .empty, _ => trivial
  | .frame .., h => ⟨hXY _ h.1, Thunk.Within.mono h.2.1, Env.Within.mono h.2.2⟩
end

end

mutual
theorem Value.Within.inter {X Y : Seed → Prop} :
    ∀ {v : Value}, v.Within X → v.Within Y → v.Within fun υ => X υ ∧ Y υ
  | .closure .., h, h' => ⟨⟨h.1, h'.1⟩, Env.Within.inter h.2 h'.2⟩
  | .cons .., h, h' =>
    ⟨⟨h.1, h'.1⟩, Thunk.Within.inter h.2.1 h'.2.1, Thunk.Within.inter h.2.2 h'.2.2⟩
  | .int _, _, _ | .bool _, _, _ | .prim _, _, _ | .nil, _, _ => trivial

theorem Thunk.Within.inter {X Y : Seed → Prop} :
    ∀ {x : Thunk}, x.Within X → x.Within Y → x.Within fun υ => X υ ∧ Y υ
  | .ready _, h, h' => Value.Within.inter h h'
  | .byName ⟨_, _, _⟩, h, h' => Env.Within.inter h h'
  | .byNeed _ ⟨_, _, _⟩, h, h' => ⟨⟨h.1, h'.1⟩, Env.Within.inter h.2 h'.2⟩

theorem Env.Within.inter {X Y : Seed → Prop} :
    ∀ {ρ : Env}, ρ.Within X → ρ.Within Y → ρ.Within fun υ => X υ ∧ Y υ
  | .empty, _, _ => trivial
  | .frame .., h, h' =>
    ⟨⟨h.1, h'.1⟩, Thunk.Within.inter h.2.1 h'.2.1, Env.Within.inter h.2.2 h'.2.2⟩
end

theorem Value.IsAtom.within {X : Seed → Prop} {v : Value} (h : v.IsAtom) : v.Within X := by
  cases v <;> first | exact h.elim | trivial

/-- All marks of both sides are in the set. -/
def Comparison.Within (X : Seed → Prop) : Comparison → Prop
  | .values a b => a.Within X ∧ b.Within X
  | .tails x y => x.Within X ∧ y.Within X
  | .envs a b => a.Within X ∧ b.Within X

theorem Env.Within.framed {X : Seed → Prop} {σ : Seed} (hσ : ∀ i, X (σ ++ [i])) {ρ : Env}
    (hρ : ρ.Within X) {bindings : List (Name × Thunk)} (hbs : ∀ b ∈ bindings, b.2.Within X) :
    (ρ.framed σ bindings).Within X := by
  induction bindings with
  | nil => exact hρ
  | cons b rest ih =>
      refine ⟨?_, hbs b List.mem_cons_self, ih fun b' hb' => hbs b' (List.mem_cons_of_mem b hb')⟩
      rw [Seed.ofCode_code]
      exact hσ rest.length

/-! ## What a plan yields stays in its zone -/

/-- The same data on both sides, with all their marks in a set of seeds. -/
def withinKinship (setting : Setting) (X : Seed → Prop) : Kinship where
  World := Unit
  le _ _ := True
  left := setting
  right := setting
  strict := False
  value _ v w := w = v ∧ v.Within X
  thunk _ x y := y = x ∧ x.Within X
  env _ a b := b = a ∧ a.Within X
  todo _ t t' := t' = t ∧ ∀ c ∈ t, c.Within X
  refl _ := trivial
  trans _ _ := trivial
  value_mono _ h := h
  thunk_mono _ h := h
  env_mono _ h := h
  todo_mono _ h := h
  atom h := ⟨rfl, h.within⟩
  empty := ⟨rfl, trivial⟩
  value_layer {_ _ w} h := by
    obtain ⟨rfl, h⟩ := h
    cases w with
    | closure => exact .closure ⟨rfl, h.2⟩
    | cons => exact .cons ⟨rfl, h.2.1⟩ ⟨rfl, h.2.2⟩
    | int | bool | prim | nil => exact .atom trivial
  env_layer {_ _ b} h := by
    obtain ⟨rfl, h⟩ := h
    cases b with
    | empty => exact .empty
    | frame => exact .frame ⟨rfl, h.2.1⟩ ⟨rfl, h.2.2⟩
  ready h := by
    obtain ⟨rfl, h⟩ := h
    exact ⟨_, rfl, rfl, h⟩
  ready_strict h := h.elim
  todo_nil := ⟨rfl, nofun⟩
  todo_cons hc h := by
    obtain ⟨rfl, h⟩ := h
    cases hc with
    | values ha hb =>
        obtain ⟨⟨rfl, ha⟩, ⟨rfl, hb⟩⟩ := And.intro ha hb
        exact ⟨rfl, List.forall_mem_cons.2 ⟨⟨ha, hb⟩, h⟩⟩
    | tails ha hb =>
        obtain ⟨⟨heq, ha⟩, ⟨heq', hb⟩⟩ := And.intro ha hb
        cases heq
        cases heq'
        exact ⟨rfl, List.forall_mem_cons.2 ⟨⟨ha.2.2.2, hb.2.2.2⟩, h⟩⟩
    | envs ha hb =>
        obtain ⟨⟨rfl, ha⟩, ⟨rfl, hb⟩⟩ := And.intro ha hb
        exact ⟨rfl, List.forall_mem_cons.2 ⟨⟨ha, hb⟩, h⟩⟩

theorem forall₂_within {X : Seed → Prop} {R : Name × Thunk → Name × Thunk → Prop}
    (hR : ∀ b b', R b b' → b.2.Within X) {bs bs' : List (Name × Thunk)}
    (h : List.Forall₂ R bs bs') : ∀ b ∈ bs, b.2.Within X := by
  induction h with
  | nil => exact nofun
  | cons hb _ ih => exact List.forall_mem_cons.2 ⟨hR _ _ hb, ih⟩

/-- The marks of what a plan yields are among those below its next requests and below the marks of
what it is given. -/
theorem Yields.within {X : Seed → Prop} {α : Type} {b : Option Nat} {σ : Seed} {k : Nat}
    {p : Plan α} {a : α} (h : Yields b σ k p a) (hX : Seed.Closed X)
    (hahead : ∀ υ, Seed.Ahead σ k υ → X υ) {setting : Setting}
    {W : (withinKinship setting X).World} {post : (withinKinship setting X).World → α → α → Prop}
    (hrel : Plan.Related (withinKinship setting X) post W p p) : post W a a := by
  -- The induction is on how the plan yields.  What it makes is marked by its own requests, and the
  -- rest is made of what it was given.
  induction h generalizing setting with
  | done =>
      cases hrel with
      | done h => exact h
  | count _ ih =>
      cases hrel with
      | count h => exact ih hahead h
  | @eval _ _ _ σ k _ _ e _ _ _ _ _ _ ihv ih =>
      cases hrel with
      | eval henv hnext =>
          have hv := ihv (fun υ hυ => hahead υ (.of_below hυ.prefix_self))
            (Kinship.plan_related henv e)
          exact ih (fun υ hυ => hahead υ hυ.of_succ) (hnext W trivial _ _ hv)
  | ready _ ih =>
      cases hrel with
      | force hthunk hnext =>
          exact ih (fun υ hυ => hahead υ hυ.of_succ) (hnext W trivial _ _ ⟨rfl, hthunk.2⟩)
  | @force _ _ _ σ τ k x S ρ e _ v _ hhome _ _ _ ihv ih =>
      cases hrel with
      | force hthunk hnext =>
          have hv : v.Within X := by
            cases x with
            | ready => cases hhome
            | byName s =>
                cases hhome
                exact (ihv (fun υ hυ => hahead υ (.of_below hυ.prefix_self))
                  (Kinship.plan_related (K := withinKinship S X) (W := W) ⟨rfl, hthunk.2⟩ e)).2
            | byNeed address s =>
                cases hhome
                exact (ihv (fun υ hυ => hX _ υ hthunk.2.1 hυ.prefix_self)
                  (Kinship.plan_related (K := withinKinship S X) (W := W) ⟨rfl, hthunk.2.2⟩ e)).2
          exact ih (fun υ hυ => hahead υ hυ.of_succ) (hnext W trivial _ _ ⟨rfl, hv⟩)
  | delayValue _ _ _ ihv ih =>
      obtain ⟨_, _, _, _, _, rfl, henv, heq, hnext⟩ := hrel.delay_inv
      obtain ⟨-, -, rfl, -, rfl⟩ := Plan.delay.inj heq
      have hv := ihv (fun υ hυ => hahead υ (.of_below hυ.prefix_self))
        (Kinship.plan_related henv _)
      exact ih (fun υ hυ => hahead υ hυ.of_succ) (hnext W trivial _ _ ⟨rfl, hv.2⟩)
  | delayName _ ih =>
      obtain ⟨_, _, _, _, _, rfl, henv, heq, hnext⟩ := hrel.delay_inv
      obtain ⟨-, -, rfl, -, rfl⟩ := Plan.delay.inj heq
      exact ih (fun υ hυ => hahead υ hυ.of_succ) (hnext W trivial _ _ ⟨rfl, henv.2⟩)
  | delayNeed _ ih =>
      obtain ⟨_, _, _, _, _, rfl, henv, heq, hnext⟩ := hrel.delay_inv
      obtain ⟨-, -, rfl, -, rfl⟩ := Plan.delay.inj heq
      refine ih (fun υ hυ => hahead υ hυ.of_succ) (hnext W trivial _ _ ⟨rfl, ?_, henv.2⟩)
      rw [Seed.ofCode_code]
      exact hahead _ (Seed.ahead_self _ _)
  | cell _ ih =>
      cases hrel with
      | cell hhead htail _ hnext =>
          refine ih (fun υ hυ => hahead υ hυ.of_succ) (hnext W trivial _ _ ⟨rfl, ?_⟩)
          exact ⟨by rw [Seed.ofCode_code]; exact hahead _ (Seed.ahead_self _ _), hhead.2, htail.2⟩
  | closure _ ih =>
      cases hrel with
      | closure henv hnext =>
          refine ih (fun υ hυ => hahead υ hυ.of_succ) (hnext W trivial _ _ ⟨rfl, ?_⟩)
          exact ⟨by rw [Seed.ofCode_code]; exact hahead _ (Seed.ahead_self _ _), henv.2⟩
  | extend _ ih =>
      cases hrel with
      | extend henv hbs hnext =>
          refine ih (fun υ hυ => hahead υ hυ.of_succ) (hnext W trivial _ _ ⟨rfl, ?_⟩)
          refine henv.2.framed (fun i => hahead _ (.of_below (List.prefix_append _ [i]))) ?_
          exact forall₂_within (fun _ _ hb => hb.2.2) hbs
  | compare _ _ iht ih =>
      cases hrel with
      | compare htodo hnext =>
          exact ih (fun υ hυ => hahead υ hυ.of_succ) (hnext W trivial _)

end PolicyEval
