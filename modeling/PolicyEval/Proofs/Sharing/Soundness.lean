import PolicyEval.Proofs.Eval.Outcome
import PolicyEval.Proofs.Sharing.Mirror

/-!
# What an evaluation computes, the account yields

An evaluation that succeeds is followed by the account, request by request.  The account may share
more than the evaluation does: it may evaluate once what the evaluation runs at every use.  Then two
objects that the evaluation made in two runs are one object by the account, which sees at once that
they are equal, while the evaluation looks through both.  That look, if it ends, ends well, because
both runs yield the same by the account.

* `Pairing.Follows` — the account shares what the evaluation shares, or more.
* `Pairing.budget` — the nesting left to an evaluation, if the account is to keep to its limit.
* `Pairing.kinship` — mirrored data, and comparisons of which the account may skip some.
* `Pairing.run_yields` — a plan that succeeds yields a mirrored result by the account.
-/

namespace PolicyEval

namespace Pairing

/-- Mirrored comparisons, of which the account skips some that compare a thing with itself. -/
abbrev Queue (P : Pairing) (W : Matching) : List Comparison → List Comparison → Prop :=
  Comparison.Queue (Value.Mirrors P W) (Env.Mirrors P W)

theorem sameKind_mono {P : Pairing} {W W' : Matching} (hW : W.le W') {c c' : Comparison}
    (hc : c.SameKind (Value.Mirrors P W) (Env.Mirrors P W) c') :
    c.SameKind (Value.Mirrors P W') (Env.Mirrors P W') c' :=
  hc.mono (fun h => h.mono hW) fun h => h.mono hW

theorem queue_mono {P : Pairing} {W W' : Matching} (hW : W.le W') {todo todo' : List Comparison}
    (h : P.Queue W todo todo') : P.Queue W' todo todo' :=
  h.mono (fun h => h.mono hW) fun h => h.mono hW

/-- Mirrored data, and comparisons of which the account may skip some. -/
def kinship (P : Pairing) : Kinship where
  World := Matching
  le := Matching.le
  left := P.store
  right := P.account
  strict := False
  value := Value.Mirrors P
  thunk := Thunk.Mirrors P
  env := Env.Mirrors P
  todo := P.Queue
  refl := .refl
  trans := .trans
  value_mono hW h := h.mono hW
  thunk_mono hW h := h.mono hW
  env_mono hW h := h.mono hW
  todo_mono hW h := queue_mono hW h
  atom h := .atom h
  empty := .empty
  value_layer h := h.layer
  env_layer h := h.layer
  ready h := by
    cases h with
    | ready hv => exact ⟨_, rfl, hv⟩
  ready_strict h := h.elim
  todo_nil := .nil
  todo_cons hc h := .cons hc h

/-- On each axis the account has the discipline of the evaluation, or evaluates once what the
evaluation runs at every use.  An account that is to keep to the limit follows evaluations that keep
no results. -/
structure Follows (P : Pairing) (metered : Bool) : Prop where
  axis : ∀ axis : Policy → Discipline, axis = Policy.args ∨ axis = Policy.lists →
    axis P.account.policy = axis P.store.policy ∨
      P.reruns ∧ axis P.store.policy = .name ∧ axis P.account.policy = .need
  stateless : metered = true → ∀ axis : Policy → Discipline,
    axis = Policy.args ∨ axis = Policy.lists → axis P.store.policy ≠ .need

/-- What the evaluation does not run at every use, the account treats as the evaluation does. -/
theorem Follows.axis_eq {P : Pairing} {metered : Bool} (hP : P.Follows metered)
    {axis : Policy → Discipline} (haxis : axis = Policy.args ∨ axis = Policy.lists)
    {d : Discipline} (hstore : axis P.store.policy = d) (hd : d ≠ .name) :
    axis P.account.policy = d := by
  rcases hP.axis axis haxis with heq | ⟨-, hname, -⟩
  · exact heq.trans hstore
  · exact absurd (hstore.symm.trans hname) hd

/-- The levels that the limit leaves at a depth; no budget for an account without a meter. -/
def budget (P : Pairing) (metered : Bool) (d : Nat) : Option Nat :=
  if metered then P.store.maxDepth.map (· - d) else none

theorem below_budget {P : Pairing} {metered : Bool} {d : Depth}
    (h : d.HasRoom P.store.maxDepth) :
    Below (P.budget metered d.current) (P.budget metered (d.current + 1)) := by
  cases metered with
  | false => exact below_none
  | true =>
      cases hlimit : P.store.maxDepth with
      | none => simp only [budget, hlimit, if_true, Option.map_none, Below]
      | some n =>
          have hroom := h n hlimit
          simp only [budget, hlimit, if_true, Option.map_some, Below]
          omega

/-- A state that a matching agrees with; a metered account knows of no cells. -/
structure Agrees (P : Pairing) (metered : Bool) (W : Matching) (s : State) : Prop where
  tracks : W.Tracks P s.store
  cells : metered = true → ∀ address c, W.cell address ≠ some c

/-- What a successful computation leads to: a later matching that agrees with its last state, at the
same depth. -/
structure Leads (P : Pairing) (metered : Bool) (W : Matching) (s : State) (W' : Matching)
    (s' : State) : Prop where
  le : W.le W'
  agrees : P.Agrees metered W' s'
  depth : s'.depth.current = s.depth.current

theorem Leads.trans {P : Pairing} {metered : Bool} {W W' W'' : Matching} {s s' s'' : State}
    (h : P.Leads metered W s W' s') (h' : P.Leads metered W' s' W'' s'') :
    P.Leads metered W s W'' s'' :=
  ⟨h.le.trans h'.le, h'.agrees, h'.depth.trans h.depth⟩

section

variable {P : Pairing} {metered : Bool}

/-- Evaluations with this much fuel are followed by the account, at any seed. -/
def EvalYields (P : Pairing) (metered : Bool) (n : Nat) : Prop :=
  ∀ {W : Matching} {s s' : State} {ρ ρ' : Env} {e : Expr} {v : Value}, P.Agrees metered W s →
    ρ.Mirrors P W ρ' → eval n P.store ρ e s = .ok v s' → ∀ σ : Seed, ∃ W' v' b',
      P.Leads metered W s W' s' ∧ v.Mirrors P W' v' ∧ Below (P.budget metered s.depth.current) b' ∧
        Yields b' σ 0 (e.plan P.account ρ') v'

/-- Comparisons with this much fuel are followed by the account, at any seed. -/
def CompareYields (P : Pairing) (metered : Bool) (n m : Nat) : Prop :=
  ∀ {W : Matching} {s s' : State} {todo todo' : List Comparison} {t : Bool},
    P.Agrees metered W s → P.Queue W todo todo' → compareAll (eval n) m todo s = .ok t s' →
      ∀ σ : Seed, ∃ W', P.Leads metered W s W' s' ∧
        Yields (P.budget metered s.depth.current) σ 0 (stepPlan Comparison.coincides todo') t

/-- Running a suspended expression is evaluating it, with one more count. -/
theorem suspension_yields {n : Nat} (hn : P.EvalYields metered n) {W : Matching} {s s' : State}
    {ρ ρ' : Env} {e : Expr} {v : Value} (hs : P.Agrees metered W s) (henv : ρ.Mirrors P W ρ')
    (hrun : Suspension.run (eval n) ⟨P.store, ρ, e⟩ s = .ok v s') (σ : Seed) :
    ∃ W' v' b', P.Leads metered W s W' s' ∧ v.Mirrors P W' v' ∧
      Below (P.budget metered s.depth.current) b' ∧ Yields b' σ 0 (e.plan P.account ρ') v' := by
  have hcounted : P.Agrees metered W { s with counters := s.counters.countForced } :=
    ⟨hs.tracks, hs.cells⟩
  obtain ⟨W', v', b', hleads, hv, hlevel, hyields⟩ := hn hcounted henv hrun σ
  exact ⟨W', v', b', ⟨hleads.le, hleads.agrees, hleads.depth⟩, hv, hlevel, hyields⟩

/-- If there are cells, the account has no budget. -/
theorem Agrees.budget_eq_none {W : Matching} {s : State} (hs : P.Agrees metered W s)
    {address : Nat} {c : Nat × Suspension} (hcell : W.cell address = some c) (d : Nat) :
    P.budget metered d = none := by
  cases metered with
  | false => rfl
  | true => exact absurd hcell (hs.cells rfl address c)

/-- Forcing is followed by the account if evaluating is. -/
theorem force_yields {n : Nat} (hn : P.EvalYields metered n) {W : Matching} {s s' : State}
    {x x' : Thunk} {v : Value} (hs : P.Agrees metered W s) (hx : x.Mirrors P W x')
    (hrun : force (eval n) x s = .ok v s') (σ : Seed) :
    ∃ W' v', P.Leads metered W s W' s' ∧ v.Mirrors P W' v' ∧
      x'.Yields (P.budget metered s.depth.current) σ v' := by
  cases hx with
  | ready hv =>
      cases hrun
      exact ⟨W, _, ⟨.refl W, hs, rfl⟩, hv, .ready⟩
  | byName henv =>
      obtain ⟨W', v', b', hleads, hv, hlevel, hyields⟩ := suspension_yields hn hs henv hrun σ
      exact ⟨W', v', hleads, hv, .run rfl hlevel hyields⟩
  | @rerun mark ρ ρ' e hreruns henv =>
      obtain ⟨W', v', b', hleads, hv, hlevel, hyields⟩ :=
        suspension_yields hn hs henv hrun (Seed.ofCode mark)
      exact ⟨W', v', hleads, hv, .run rfl hlevel hyields⟩
  | @byNeed address mark ρ ρ' e hcell henv =>
      have hbudget := hs.budget_eq_none hcell s.depth.current
      rw [hbudget]
      simp only [force, Eval.bind_eq_ok] at hrun
      obtain ⟨s₀, s₁, hget, hrun⟩ := hrun
      cases hget
      cases hkept : s.store.kept? address with
      | some kept =>
          rw [hkept] at hrun
          cases hrun
          obtain ⟨v', hv, hyields⟩ := hs.tracks.kept hcell hkept
          exact ⟨W, v', ⟨.refl W, hs, rfl⟩, hv, .run rfl below_none hyields⟩
      | none =>
          rw [hkept] at hrun
          obtain ⟨u, s₂, hsuspension, hkeep⟩ := Eval.bind_eq_ok.1 hrun
          obtain ⟨W', u', b', hleads, hu, hlevel, hyields⟩ :=
            suspension_yields hn hs henv hsuspension (Seed.ofCode mark)
          have hcell' := hleads.le.cell hcell
          rw [Eval.keep_apply] at hkeep
          -- A result that the cell got meanwhile stays; it mirrors what the account yields as well.
          cases hkept₂ : s₂.store.kept? address with
          | some kept =>
              rw [hkept₂] at hkeep
              cases hkeep
              obtain ⟨v', hv, hyields'⟩ := hleads.agrees.tracks.kept hcell' hkept₂
              exact ⟨W', v', hleads, hv, .run rfl below_none hyields'⟩
          | none =>
              rw [hkept₂] at hkeep
              cases hkeep
              have htracks := hleads.agrees.tracks.keep hcell' hu hyields.unlimited
              exact ⟨W', u', ⟨hleads.le, ⟨htracks, hleads.agrees.cells⟩, hleads.depth⟩, hu,
                .run rfl below_none hyields.unlimited⟩

/-- Delaying is followed by the account if evaluating is. -/
theorem delay_yields (hP : P.Follows metered) {n : Nat} (hn : P.EvalYields metered n)
    {W : Matching} {s s' : State} {ρ ρ' : Env} {e : Expr} {x : Thunk}
    {axis : Policy → Discipline} (haxis : axis = Policy.args ∨ axis = Policy.lists)
    (hs : P.Agrees metered W s) (henv : ρ.Mirrors P W ρ')
    (hrun : delay (eval n) (axis P.store.policy) P.store ρ e s = .ok x s') (σ : Seed) (k : Nat) :
    ∃ W' x', P.Leads metered W s W' s' ∧ x.Mirrors P W' x' ∧
      ∀ {α : Type} {next : Thunk → Plan α} {a : α},
        Yields (P.budget metered s.depth.current) σ (k + 1) (next x') a →
          Yields (P.budget metered s.depth.current) σ k
            (.delay (axis P.account.policy) P.account ρ' e next) a := by
  cases hstore : axis P.store.policy with
  | value =>
      rw [hstore] at hrun
      have haccount := hP.axis_eq haxis hstore (by decide)
      obtain ⟨v, s₁, heval, hpure⟩ := Eval.bind_eq_ok.1 hrun
      cases hpure
      obtain ⟨W', v', b', hleads, hv, hlevel, hyields⟩ := hn hs henv heval (σ ++ [k])
      refine ⟨W', .ready v', hleads, .ready hv, fun h => ?_⟩
      rw [haccount]
      exact .delayValue hlevel hyields h
  | name =>
      rw [hstore] at hrun
      cases hrun
      -- What the evaluation runs at every use, the account may evaluate once.
      rcases hP.axis axis haxis with heq | ⟨hreruns, -, hneed⟩
      · refine ⟨W, .byName ⟨P.account, ρ', e⟩, ⟨.refl W, hs, rfl⟩, .byName henv, fun h => ?_⟩
        rw [heq, hstore]
        exact .delayName h
      · refine ⟨W, .byNeed (Seed.code (σ ++ [k])) ⟨P.account, ρ', e⟩, ⟨.refl W, hs, rfl⟩,
          .rerun hreruns henv, fun h => ?_⟩
        rw [hneed]
        exact .delayNeed h
  | need =>
      rw [hstore] at hrun
      have haccount := hP.axis_eq haxis hstore (by decide)
      cases hrun
      have hunmetered : metered ≠ true := fun h => hP.stateless h axis haxis hstore
      obtain ⟨hle, hthunk⟩ := hs.tracks.byNeed_mirrors (Seed.code (σ ++ [k])) e henv
      refine ⟨_, .byNeed (Seed.code (σ ++ [k])) ⟨P.account, ρ', e⟩,
        ⟨hle, ⟨hs.tracks.withCell _, fun h => absurd h hunmetered⟩, rfl⟩, hthunk, fun h => ?_⟩
      rw [haccount]
      exact .delayNeed h

/-- Putting bindings in front of an environment is followed by the account. -/
theorem Agrees.withFrames {W : Matching} {s : State} (hs : P.Agrees metered W s) (σ : Seed)
    {ρ ρ' : Env} (henv : ρ.Mirrors P W ρ') {bs bs' : List (Name × Thunk)}
    (hbs : List.Forall₂ (fun b b' => b.1 = b'.1 ∧ b.2.Mirrors P W b'.2) bs bs') :
    P.Leads metered W s (W.withFrames σ s.store.nextTag ρ' bs')
        { s with store := (s.store.extend ρ bs).2 } ∧
      (s.store.extend ρ bs).1.Mirrors P (W.withFrames σ s.store.nextTag ρ' bs')
        (ρ'.framed σ bs') := by
  obtain ⟨htracks, hle, hinner⟩ := hs.tracks.withFrames σ henv hbs
  refine ⟨⟨hle, ⟨htracks, fun hmetered => ?_⟩, rfl⟩, hinner⟩
  rw [Matching.withFrames_cell]
  exact hs.cells hmetered

/-- A plan is followed by the account if evaluating and comparing are. -/
theorem run_yields (hP : P.Follows metered) {n m : Nat} (hn : P.EvalYields metered n)
    (hm : P.CompareYields metered n m) {α β : Type}
    {post : P.kinship.World → α → β → Prop} {W : P.kinship.World} {p : Plan α} {q : Plan β}
    (hrel : Plan.Related P.kinship post W p q)
    {s s' : State} {a : α} (hs : P.Agrees metered W s)
    (hrun : p.run (eval n) m s = .ok a s') (σ : Seed) (k : Nat) :
    ∃ W' a', P.Leads metered W s W' s' ∧ post W' a a' ∧
      Yields (P.budget metered s.depth.current) σ k q a' := by
  -- The induction is on how the plans are related.  Each request is followed at a seed of its own,
  -- below that of the plan.
  induction hrel generalizing s k with
  | done h =>
      cases hrun
      exact ⟨_, _, ⟨.refl _, hs, rfl⟩, h, .done⟩
  | fail => cases hrun
  | @count W step p q _ ih =>
      have hcounted : P.Agrees metered W { s with counters := step s.counters } :=
        ⟨hs.tracks, hs.cells⟩
      obtain ⟨W', a', hleads, hpost, hyields⟩ := ih hcounted hrun k
      exact ⟨W', a', ⟨hleads.le, hleads.agrees, hleads.depth⟩, hpost, .count hyields⟩
  | eval henv _ ih =>
      obtain ⟨v, s₁, heval, hrest⟩ := Eval.bind_eq_ok.1 hrun
      obtain ⟨W₁, v', b', h₁, hv, hlevel, hyields⟩ := hn hs henv heval (σ ++ [k])
      obtain ⟨W₂, a', h₂, hpost, hnext⟩ := ih W₁ h₁.le v v' hv h₁.agrees hrest (k + 1)
      rw [h₁.depth] at hnext
      exact ⟨W₂, a', h₁.trans h₂, hpost, .eval hlevel hyields hnext⟩
  | force hthunk _ ih =>
      obtain ⟨v, s₁, hforce, hrest⟩ := Eval.bind_eq_ok.1 hrun
      obtain ⟨W₁, v', h₁, hv, hyields⟩ := force_yields hn hs hthunk hforce (σ ++ [k])
      obtain ⟨W₂, a', h₂, hpost, hnext⟩ := ih W₁ h₁.le v v' hv h₁.agrees hrest (k + 1)
      rw [h₁.depth] at hnext
      exact ⟨W₂, a', h₁.trans h₂, hpost, hyields.force hnext⟩
  | delay haxis henv _ ih =>
      obtain ⟨x, s₁, hdelay, hrest⟩ := Eval.bind_eq_ok.1 hrun
      obtain ⟨W₁, x', h₁, hx, hyields⟩ := delay_yields hP hn haxis hs henv hdelay σ k
      obtain ⟨W₂, a', h₂, hpost, hnext⟩ := ih W₁ h₁.le x x' hx h₁.agrees hrest (k + 1)
      rw [h₁.depth] at hnext
      exact ⟨W₂, a', h₁.trans h₂, hpost, hyields hnext⟩
  | @cell W x x' y y' next next' hhead htail _ _ ih =>
      obtain ⟨tag, s₁, hfresh, hrest⟩ := Eval.bind_eq_ok.1 hrun
      cases hfresh
      obtain ⟨hle, hcell⟩ := hs.tracks.cons_mirrors (Seed.code (σ ++ [k])) hhead htail
      obtain ⟨W₂, a', h₂, hpost, hnext⟩ :=
        ih _ hle _ _ hcell ⟨hs.tracks.withObject _, hs.cells⟩ hrest (k + 1)
      exact ⟨W₂, a', ⟨hle.trans h₂.le, h₂.agrees, h₂.depth⟩, hpost, .cell hnext⟩
  | @closure W lambda ρ ρ' next next' henv _ ih =>
      obtain ⟨tag, s₁, hfresh, hrest⟩ := Eval.bind_eq_ok.1 hrun
      cases hfresh
      obtain ⟨hle, hclosure⟩ := hs.tracks.closure_mirrors (Seed.code (σ ++ [k])) lambda henv
      obtain ⟨W₂, a', h₂, hpost, hnext⟩ :=
        ih _ hle _ _ hclosure ⟨hs.tracks.withObject _, hs.cells⟩ hrest (k + 1)
      exact ⟨W₂, a', ⟨hle.trans h₂.le, h₂.agrees, h₂.depth⟩, hpost, .closure hnext⟩
  | extend henv hbs _ ih =>
      obtain ⟨inner, s₁, hextend, hrest⟩ := Eval.bind_eq_ok.1 hrun
      cases hextend
      obtain ⟨h₁, hinner⟩ := hs.withFrames (σ ++ [k]) henv hbs
      obtain ⟨W₂, a', h₂, hpost, hnext⟩ := ih _ h₁.le _ _ hinner h₁.agrees hrest (k + 1)
      exact ⟨W₂, a', h₁.trans h₂, hpost, .extend hnext⟩
  | compare htodo _ ih =>
      obtain ⟨t, s₁, hcompare, hrest⟩ := Eval.bind_eq_ok.1 hrun
      obtain ⟨W₁, h₁, hyields⟩ := hm hs htodo hcompare (σ ++ [k])
      obtain ⟨W₂, a', h₂, hpost, hnext⟩ := ih W₁ h₁.le t h₁.agrees hrest (k + 1)
      rw [h₁.depth] at hnext
      exact ⟨W₂, a', h₁.trans h₂, hpost, .compare hyields hnext⟩

/-! ## Comparisons that the account skips -/

/-- Two thunks that are one by the account have values that are one by the account. -/
theorem force_twins {n : Nat} (hn : P.EvalYields metered n) {W : Matching} {s s₁ s₂ : State}
    {x y z : Thunk} {v u : Value} (hs : P.Agrees metered W s) (hx : x.Mirrors P W z)
    (hy : y.Mirrors P W z) (hv : force (eval n) x s = .ok v s₁)
    (hu : force (eval n) y s₁ = .ok u s₂) :
    ∃ W' w, P.Leads metered W s W' s₂ ∧ v.Mirrors P W' w ∧ u.Mirrors P W' w := by
  -- Both runs are followed at one and the same seed, where the account yields one thing only.
  obtain ⟨W₁, w, h₁, hw, hyields⟩ := force_yields hn hs hx hv []
  obtain ⟨W₂, w', h₂, hw', hyields'⟩ := force_yields hn h₁.agrees (hy.mono h₁.le) hu []
  obtain rfl := hyields.unique hyields'
  exact ⟨W₂, w, h₁.trans h₂, hw.mono h₂.le, hw'⟩

/-- A meeting of two things that are one by the account leaves nothing to the account but the
comparisons that follow. -/
theorem meeting_skip {n m : Nat} (hn : P.EvalYields metered n) (hm : P.CompareYields metered n m)
    {W : Matching} {s s' : State} {meeting meeting' : Meeting} {todo todo' : List Comparison}
    {t : Bool} (hs : P.Agrees metered W s) (hmeeting : P.kinship.Meets W meeting meeting')
    (hsame : meeting'.IsReflexive) (htodo : P.Queue W todo todo')
    (hrun : (meeting.plan todo).run (eval n) m s = .ok t s') (σ : Seed) :
    ∃ W', P.Leads metered W s W' s' ∧
      Yields (P.budget metered s.depth.current) σ 0 (stepPlan Comparison.coincides todo') t := by
  cases hmeeting with
  | equal =>
      obtain ⟨t', s₁, hcompare, hpure⟩ := Eval.bind_eq_ok.1 hrun
      cases hpure
      exact hm hs htodo hcompare σ
  | unequal => exact hsame.elim
  | envs hleft hright =>
      obtain ⟨t', s₁, hcompare, hpure⟩ := Eval.bind_eq_ok.1 hrun
      cases hpure
      exact hm hs (.skip (.envs hleft hright) hsame htodo) hcompare σ
  | parts hx hy hc =>
      obtain ⟨rfl, hsame⟩ := hsame
      obtain ⟨v, s₁, hv, hrun⟩ := Eval.bind_eq_ok.1 hrun
      obtain ⟨u, s₂, hu, hrun⟩ := Eval.bind_eq_ok.1 hrun
      obtain ⟨t', s₃, hcompare, hpure⟩ := Eval.bind_eq_ok.1 hrun
      cases hpure
      obtain ⟨W₁, w, h₁, hvw, huw⟩ := force_twins hn hs hx hy hv hu
      have hqueue : P.Queue W₁ (.values v u :: _ :: todo) todo' :=
        .skip (.values hvw huw) rfl (.skip (sameKind_mono h₁.le hc) hsame (queue_mono h₁.le htodo))
      obtain ⟨W₂, h₂, hyields⟩ := hm h₁.agrees hqueue hcompare σ
      rw [h₁.depth] at hyields
      exact ⟨W₂, h₁.trans h₂, hyields⟩

/-- The account may skip a comparison of a thing with itself. -/
theorem plan_skip {n m : Nat} (hn : P.EvalYields metered n) (hm : P.CompareYields metered n m)
    {W : Matching} {s s' : State} {c c' : Comparison} {todo todo' : List Comparison} {t : Bool}
    (hs : P.Agrees metered W s)
    (hc : c.SameKind (Value.Mirrors P W) (Env.Mirrors P W) c')
    (hsame : c'.IsReflexive) (htodo : P.Queue W todo todo')
    (hrun : (c.plan todo).run (eval n) m s = .ok t s') (σ : Seed) :
    ∃ W', P.Leads metered W s W' s' ∧
      Yields (P.budget metered s.depth.current) σ 0 (stepPlan Comparison.coincides todo') t := by
  cases hc with
  | @values a b a' b' ha hb =>
      obtain rfl : a' = b' := hsame
      have hmeeting := P.kinship.values_meet (W := W) ha hb
      exact meeting_skip hn hm hs hmeeting a'.meet_self_isReflexive htodo hrun σ
  | @envs a b a' b' ha hb =>
      obtain rfl : a' = b' := hsame
      have hmeeting := P.kinship.envs_meet (W := W) ha hb
      exact meeting_skip hn hm hs hmeeting a'.meet_self_isReflexive htodo hrun σ
  | @tails _ _ _ _ x x' y y' _ _ _ _ ha hb =>
      obtain rfl : x' = y' := hsame
      have hx := ha.layer.tails
      have hy := hb.layer.tails
      simp only [Comparison.plan, Plan.run, Plan.run_lift] at hrun
      obtain ⟨v, s₁, hv, hrun⟩ := Eval.bind_eq_ok.1 hrun
      obtain ⟨v₁, s₂, hvlist, hrun⟩ := Eval.bind_eq_ok.1 hrun
      obtain ⟨hvtail, rfl⟩ := Eval.lift_eq_ok.1 hvlist
      obtain ⟨u, s₃, hu, hrun⟩ := Eval.bind_eq_ok.1 hrun
      obtain ⟨u₁, s₄, hulist, hrun⟩ := Eval.bind_eq_ok.1 hrun
      obtain ⟨hutail, rfl⟩ := Eval.lift_eq_ok.1 hulist
      obtain ⟨t', s₅, hcompare, hpure⟩ := Eval.bind_eq_ok.1 hrun
      cases hpure
      obtain rfl := (asTail_eq_ok.1 hvtail).2
      obtain rfl := (asTail_eq_ok.1 hutail).2
      obtain ⟨W₁, w, h₁, hvw, huw⟩ := force_twins hn hs hx hy hv hu
      have hqueue : P.Queue W₁ (.values v₁ u₁ :: todo) todo' :=
        .skip (.values hvw huw) rfl (queue_mono h₁.le htodo)
      obtain ⟨W₂, h₂, hyields⟩ := hm h₁.agrees hqueue hcompare σ
      rw [h₁.depth] at hyields
      exact ⟨W₂, h₁.trans h₂, hyields⟩

/-- The account may skip a step that compares a thing with itself. -/
theorem step_skip {n m : Nat} (hn : P.EvalYields metered n) (hm : P.CompareYields metered n m)
    {W : Matching} {s s' : State} {c c' : Comparison} {todo todo' : List Comparison} {t : Bool}
    (hs : P.Agrees metered W s)
    (hc : c.SameKind (Value.Mirrors P W) (Env.Mirrors P W) c')
    (hsame : c'.IsReflexive) (htodo : P.Queue W todo todo')
    (hrun : (stepPlan Comparison.identical (c :: todo)).run (eval n) m s = .ok t s') (σ : Seed) :
    ∃ W', P.Leads metered W s W' s' ∧
      Yields (P.budget metered s.depth.current) σ 0 (stepPlan Comparison.coincides todo') t := by
  simp only [stepPlan] at hrun
  split at hrun
  · obtain ⟨t', s₁, hcompare, hpure⟩ := Eval.bind_eq_ok.1 hrun
    cases hpure
    exact hm hs htodo hcompare σ
  · exact plan_skip hn hm hs hc hsame htodo hrun σ

theorem coincides_of_identical {W : Matching} {c c' : Comparison}
    (hc : c.SameKind (Value.Mirrors P W) (Env.Mirrors P W) c')
    (h : c.identical = true) : c'.coincides = true := by
  cases hc with
  | values ha hb => exact Comparison.coincides_values.2 (ha.eq_of_identical hb h)
  | envs ha hb => exact Comparison.coincides_envs.2 (ha.eq_of_same hb h)
  | tails => cases h

/-- Comparing is followed by the account if evaluating is. -/
theorem compare_yields (hP : P.Follows metered) {n : Nat} (hn : P.EvalYields metered n) (m : Nat) :
    P.CompareYields metered n m := by
  induction m with
  | zero =>
      intro W s s' todo todo' t hs hqueue hrun
      cases hrun
  | succ m ih =>
      intro W s s' todo todo' t hs hqueue hrun σ
      rw [compareAll_succ] at hrun
      cases hqueue with
      | nil =>
          cases hrun
          exact ⟨W, ⟨.refl W, hs, rfl⟩, .done⟩
      | skip hc hsame htodo => exact step_skip hn ih hs hc hsame htodo hrun σ
      | @cons c c' rest rest' hc htodo =>
          by_cases hcoincides : c'.coincides = true
          · -- One thing by the account: it goes on with the rest, whatever the evaluation does.
            obtain ⟨W', hleads, hyields⟩ := step_skip hn ih hs hc
              (Comparison.isReflexive_of_coincides hcoincides) htodo hrun (σ ++ [0])
            refine ⟨W', hleads, ?_⟩
            rw [stepPlan, if_pos hcoincides]
            exact .compare hyields .done
          · have hidentical : ¬c.identical = true :=
              fun h => hcoincides (coincides_of_identical hc h)
            rw [stepPlan, if_neg hidentical] at hrun
            have hrel := P.kinship.comparison_related (W := W) htodo hc
            obtain ⟨W', t', hleads, rfl, hyields⟩ := run_yields hP hn ih hrel hs hrun σ 0
            refine ⟨W', hleads, ?_⟩
            rw [stepPlan, if_neg hcoincides]
            exact hyields

/-- Evaluations are followed by the account, whatever their fuel. -/
theorem eval_yields (hP : P.Follows metered) (n : Nat) : P.EvalYields metered n := by
  induction n with
  | zero =>
      intro W s s' ρ ρ' e v hs henv hrun
      cases hrun
  | succ n ih =>
      intro W s s' ρ ρ' e v hs henv hrun σ
      rw [eval_succ, Eval.within_eq_ok] at hrun
      obtain ⟨hroom, s₁, hbody, rfl⟩ := hrun
      have hrel : Plan.Related P.kinship P.kinship.value W
          (.count Counters.countExpression (e.plan P.store ρ))
          (.count Counters.countExpression (e.plan P.account ρ')) :=
        .count (P.kinship.plan_related (W := W) henv e)
      obtain ⟨W', v', hleads, hv, hyields⟩ := run_yields hP ih (compare_yields hP ih n) hrel
        (s := { s with depth := s.depth.deeper }) ⟨hs.tracks, hs.cells⟩ hbody σ 0
      refine ⟨W', v', P.budget metered (s.depth.current + 1), ⟨hleads.le, ?_, ?_⟩, hv,
        below_budget hroom, ?_⟩
      · exact ⟨hleads.agrees.tracks, hleads.agrees.cells⟩
      · have hdepth : s₁.depth.current = s.depth.current + 1 := hleads.depth
        simp only [Depth.leave, hdepth, Nat.add_sub_cancel]
      · cases hyields with
        | count hyields => exact hyields

/-- A program that succeeds yields the same text by the account. -/
theorem program_yields (hP : P.Follows metered) {fuel printDepth : Nat} {root : Expr}
    {store : Store} {s' : State} {text : String}
    (hrun : runProgram fuel ⟨P.store, printDepth⟩ root (State.start store) = .ok text s') :
    Yields (P.budget metered 0) [] 0 (programPlan ⟨P.account, printDepth⟩ root) text := by
  rw [runProgram_eq_run] at hrun
  have heval : P.EvalYields metered fuel := eval_yields hP fuel
  have hrel := P.kinship.program_related (W := .empty) printDepth root
  obtain ⟨W', text', -, rfl, hyields⟩ := run_yields hP heval (compare_yields hP heval fuel) hrel
    (s := State.start store) ⟨.empty store, fun _ => nofun⟩ hrun [] 0
  exact hyields

end

end Pairing

end PolicyEval
