import PolicyEval.Proofs.Eval.Outcome
import PolicyEval.Proofs.Replay.InFull
import PolicyEval.Proofs.Replay.Unfolding

/-!
# Evaluating again what was evaluated once

An evaluation that compares in full and succeeds can be done over without its cells, at any seed and
as often as asked for: the account of the unfolded data yields what the evaluation came to.  Where
the account takes two things to be one, the evaluation has looked through both.  That look ended
well, because evaluating one thing twice yields one thing.

What is claimed of a result is claimed for all that the data unfold to from then on.  So it can be
used again when a kept result is read in a later state.

* `Holdings.LeadsTo` — what a successful computation does to the cells.
* `ForcesTo`, `DelaysTo`, `ComparesTo`, `Plan.FollowsTo` — what is claimed of results.
* `eval_replays` — evaluations can be done over.
* `program_replays` — so can programs.
-/

namespace PolicyEval

/-- What a successful computation leads to: cells that were there stay, and the cells of its last
state keep what evaluating again yields. -/
structure Holdings.LeadsTo (S : Setting) (W W' : Holdings) (s' : State) : Prop where
  le : W.le W'
  faithful : Faithful S W' s'.store

theorem Holdings.LeadsTo.trans {S : Setting} {W W' W'' : Holdings} {s' s'' : State}
    (h : W.LeadsTo S W' s') (h' : W'.LeadsTo S W'' s'') : W.LeadsTo S W'' s'' :=
  ⟨h.le.trans h'.le, h'.faithful⟩

/-! ## What is claimed of results -/

/-- Whatever a thunk unfolds to from now on yields what the value unfolds to, at any seed. -/
def ForcesTo (S : Setting) (W : Holdings) (x : Thunk) (v : Value) : Prop :=
  ∀ W' : Holdings, W.le W' → ∀ x' : Thunk, x.Unfolds S W' x' → ∀ σ : Seed,
    ∃ v', v.Unfolds S W' v' ∧ x'.Yields none σ v'

/-- Whatever an environment unfolds to from now on, delaying the expression there gives what the
thunk unfolds to. -/
def DelaysTo (S : Setting) (W : Holdings) (d : Discipline) (ρ : Env) (e : Expr) (x : Thunk) :
    Prop :=
  ∀ W' : Holdings, W.le W' → ∀ ρ' : Env, ρ.Unfolds S W' ρ' → ∀ (σ : Seed) (k : Nat),
    ∃ x', x.Unfolds S W' x' ∧ ∀ {α : Type} {next : Thunk → Plan α} {a : α},
      Yields none σ (k + 1) (next x') a → Yields none σ k (.delay d.rerun S.rerun ρ' e next) a

/-- Whatever comparisons unfold to from now on, they have this outcome at any seed. -/
def ComparesTo (S : Setting) (W : Holdings) (todo : List Comparison) (t : Bool) : Prop :=
  ∀ W' : Holdings, W.le W' → ∀ todo' : List Comparison, UnfoldedQueue S W' todo todo' →
    ∀ σ : Seed, Yields none σ 0 (stepPlan Comparison.coincides todo') t

/-- Whatever is related to a plan from now on yields something related to the result, at any
seed. -/
def Plan.FollowsTo (S : Setting) {α β : Type} (post : (unfoldKinship S).World → α → β → Prop)
    (W : (unfoldKinship S).World) (p : Plan α) (a : α) : Prop :=
  ∀ W', (unfoldKinship S).le W W' → ∀ q : Plan β, Plan.Related (unfoldKinship S) post W' p q →
    ∀ (σ : Seed) (k : Nat), ∃ a', post W' a a' ∧ Yields none σ k q a'

section

variable {S : Setting} {W W' : Holdings}

theorem ForcesTo.mono {x : Thunk} {v : Value} (h : ForcesTo S W x v) (hW : W.le W') :
    ForcesTo S W' x v := fun W'' hW' => h W'' (hW.trans hW')

theorem DelaysTo.mono {d : Discipline} {ρ : Env} {e : Expr} {x : Thunk}
    (h : DelaysTo S W d ρ e x) (hW : W.le W') : DelaysTo S W' d ρ e x :=
  fun W'' hW' => h W'' (hW.trans hW')

theorem ComparesTo.mono {todo : List Comparison} {t : Bool} (h : ComparesTo S W todo t)
    (hW : W.le W') : ComparesTo S W' todo t := fun W'' hW' => h W'' (hW.trans hW')

/-- A thunk that is evaluated at every use is forced by evaluating its expression. -/
theorem Replays.forcesTo_byName {ρ : Env} {e : Expr} {v : Value} (h : Replays S W ρ e v) :
    ForcesTo S W (.byName ⟨S, ρ, e⟩) v := by
  intro W' hW x' hx σ
  cases hx with
  | byName henv =>
      obtain ⟨v', hv, hyields⟩ := h W' hW _ henv σ
      exact ⟨v', hv, .run rfl below_none hyields⟩

/-- A thunk that is evaluated once unfolds to one that is forced by evaluating its expression. -/
theorem Replays.forcesTo_byNeed {ρ : Env} {e : Expr} {v : Value} (h : Replays S W ρ e v)
    (address : Nat) : ForcesTo S W (.byNeed address ⟨S, ρ, e⟩) v := by
  intro W' hW x' hx σ
  cases hx with
  | byNeed _ henv =>
      obtain ⟨v', hv, hyields⟩ := h W' hW _ henv σ
      exact ⟨v', hv, .run rfl below_none hyields⟩

/-- Two thunks that unfold to one have values that unfold to one. -/
theorem ForcesTo.twins {x y z : Thunk} {v u : Value} (hv : ForcesTo S W x v)
    (hu : ForcesTo S W y u) (hx : x.Unfolds S W z) (hy : y.Unfolds S W z) :
    ∃ w, v.Unfolds S W w ∧ u.Unfolds S W w := by
  -- Both are forced at one and the same seed, where the account yields one thing only.
  obtain ⟨w, hvw, hyields⟩ := hv W (.refl W) z hx []
  obtain ⟨w', huw, hyields'⟩ := hu W (.refl W) z hy []
  obtain rfl := hyields.unique hyields'
  exact ⟨w, hvw, huw⟩

end

/-! ## Thunks and plans -/

/-- Evaluations with this much fuel can be done over. -/
def EvalReplays (S : Setting) (n : Nat) : Prop :=
  ∀ {W : Holdings} {s s' : State} {ρ ρ' : Env} {e : Expr} {v : Value}, Faithful S W s.store →
    ρ.Unfolds S W ρ' → evalInFull n S ρ e s = .ok v s' →
      ∃ W', W.LeadsTo S W' s' ∧ Replays S W' ρ e v

/-- Comparisons with this much fuel can be done over. -/
def CompareReplays (S : Setting) (n m : Nat) : Prop :=
  ∀ {W : Holdings} {s s' : State} {todo todo' : List Comparison} {t : Bool},
    Faithful S W s.store → UnfoldedQueue S W todo todo' →
      compareInFull n m todo s = .ok t s' →
        ∃ W', W.LeadsTo S W' s' ∧ ComparesTo S W' todo t

section

variable {S : Setting} {W : Holdings} {n m : Nat} {s s' : State}

theorem force_replays (hn : EvalReplays S n) {x x' : Thunk} {v : Value}
    (hs : Faithful S W s.store) (hx : x.Unfolds S W x')
    (hrun : force (evalInFull n) x s = .ok v s') :
    ∃ W', W.LeadsTo S W' s' ∧ ForcesTo S W' x v := by
  cases hx with
  | ready hv =>
      cases hrun
      refine ⟨W, ⟨.refl W, hs⟩, fun W' _ x' hx σ => ?_⟩
      cases hx with
      | ready hv => exact ⟨_, hv, .ready⟩
  | @byName ρ ρ' e henv =>
      obtain ⟨W', hleads, hv⟩ :=
        hn (s := { s with counters := s.counters.countForced }) hs henv hrun
      exact ⟨W', hleads, hv.forcesTo_byName⟩
  | @byNeed address ρ ρ' e hcell henv =>
      cases hkept : s.store.kept? address with
      | some kept =>
          rw [Eval.force_of_kept hkept] at hrun
          cases hrun
          exact ⟨W, ⟨.refl W, hs⟩, (hs.kept hcell hkept).forcesTo_byNeed address⟩
      | none =>
          rw [Eval.force_of_pending hkept] at hrun
          obtain ⟨u, s₁, hsuspension, hkeep⟩ := Eval.bind_eq_ok.1 hrun
          obtain ⟨W', hleads, hu⟩ :=
            hn (s := { s with counters := s.counters.countForced }) hs henv hsuspension
          have hcell' := hleads.le _ _ hcell
          rw [Eval.keep_apply] at hkeep
          -- If the cell got a result meanwhile, that one stays, and it can be replayed as well.
          cases hkept₁ : s₁.store.kept? address with
          | some kept =>
              rw [hkept₁] at hkeep
              cases hkeep
              exact ⟨W', hleads, (hleads.faithful.kept hcell' hkept₁).forcesTo_byNeed address⟩
          | none =>
              rw [hkept₁] at hkeep
              cases hkeep
              exact ⟨W', ⟨hleads.le, hleads.faithful.keep hcell' hu⟩, hu.forcesTo_byNeed address⟩

theorem delay_replays (hn : EvalReplays S n) {d : Discipline} {ρ ρ' : Env} {e : Expr} {x : Thunk}
    (hs : Faithful S W s.store) (henv : ρ.Unfolds S W ρ')
    (hrun : delay (evalInFull n) d S ρ e s = .ok x s') :
    ∃ W', W.LeadsTo S W' s' ∧ DelaysTo S W' d ρ e x := by
  cases d with
  | value =>
      obtain ⟨v, s₁, heval, hpure⟩ := Eval.bind_eq_ok.1 hrun
      cases hpure
      obtain ⟨W', hleads, hv⟩ := hn hs henv heval
      refine ⟨W', hleads, fun W'' hW ρ'' henv' σ k => ?_⟩
      obtain ⟨v', hv', hyields⟩ := hv W'' hW ρ'' henv' (σ ++ [k])
      exact ⟨.ready v', .ready hv', .delayValue below_none hyields⟩
  | name =>
      cases hrun
      refine ⟨W, ⟨.refl W, hs⟩, fun W'' _ ρ'' henv' σ k => ?_⟩
      exact ⟨_, .byName henv', .delayName⟩
  | need =>
      cases hrun
      refine ⟨_, ⟨hs.le_withCell ⟨S, ρ, e⟩, hs.allocate ⟨S, ρ, e⟩⟩, fun W'' hW ρ'' henv' σ k => ?_⟩
      exact ⟨_, .byNeed (hW _ _ (W.withCell_self _ _)) henv', .delayName⟩

/-- Two thunks that are forced one after the other. -/
theorem forces_replay (hn : EvalReplays S n) {s₁ s₂ : State} {x x' y y' : Thunk} {v u : Value}
    (hs : Faithful S W s.store) (hx : x.Unfolds S W x') (hy : y.Unfolds S W y')
    (hv : force (evalInFull n) x s = .ok v s₁)
    (hu : force (evalInFull n) y s₁ = .ok u s₂) :
    ∃ W', W.LeadsTo S W' s₂ ∧ ForcesTo S W' x v ∧ ForcesTo S W' y u := by
  obtain ⟨W₁, h₁, hv⟩ := force_replays hn hs hx hv
  obtain ⟨W₂, h₂, hu⟩ := force_replays hn h₁.faithful (hy.mono h₁.le) hu
  exact ⟨W₂, h₁.trans h₂, hv.mono h₂.le, hu⟩

end

/-! ### Plans request by request -/

namespace Plan.FollowsTo

variable {S : Setting} {W : Holdings} {α β : Type}
  {post : (unfoldKinship S).World → α → β → Prop} {a : α}

theorem done : Plan.FollowsTo S post W (.done a) a := by
  intro W' _ q hq σ k
  cases hq with
  | done h => exact ⟨_, h, .done⟩

theorem count {step : Counters → Counters} {p : Plan α} (hp : p.FollowsTo S post W a) :
    Plan.FollowsTo S post W (.count step p) a := by
  intro W' hW q hq σ k
  cases hq with
  | count hq =>
      obtain ⟨a', hpost, hyields⟩ := hp W' hW _ hq σ k
      exact ⟨a', hpost, .count hyields⟩

theorem eval {ρ : Env} {e : Expr} {v : Value} {next : Value → Plan α} (hv : Replays S W ρ e v)
    (hp : (next v).FollowsTo S post W a) : Plan.FollowsTo S post W (.eval S ρ e next) a := by
  intro W' hW q hq σ k
  cases hq with
  | eval henv hnext =>
      obtain ⟨v', hv', hyields⟩ := hv W' hW _ henv (σ ++ [k])
      obtain ⟨a', hpost, hyields'⟩ := hp W' hW _ (hnext W' (.refl W') v v' hv') σ (k + 1)
      exact ⟨a', hpost, .eval below_none hyields hyields'⟩

theorem force {x : Thunk} {v : Value} {next : Value → Plan α} (hv : ForcesTo S W x v)
    (hp : (next v).FollowsTo S post W a) : Plan.FollowsTo S post W (.force x next) a := by
  intro W' hW q hq σ k
  cases hq with
  | force hthunk hnext =>
      obtain ⟨v', hv', hyields⟩ := hv W' hW _ hthunk (σ ++ [k])
      obtain ⟨a', hpost, hyields'⟩ := hp W' hW _ (hnext W' (.refl W') v v' hv') σ (k + 1)
      exact ⟨a', hpost, hyields.force hyields'⟩

/-- The account delays on the same axis, where it evaluates at every use what is evaluated once. -/
theorem delay {d : Discipline} {ρ : Env} {e : Expr} {x : Thunk} {next : Thunk → Plan α}
    (hx : DelaysTo S W d ρ e x) (hp : (next x).FollowsTo S post W a) :
    Plan.FollowsTo S post W (.delay d S ρ e next) a := by
  intro W' hW q hq σ k
  obtain ⟨axis, ρ', next', haxis, rfl, -, henv, rfl, hnext⟩ := hq.delay_inv
  obtain ⟨x', hx', hyields⟩ := hx W' hW ρ' henv σ k
  obtain ⟨a', hpost, hyields'⟩ := hp W' hW _ (hnext W' (.refl W') x x' hx') σ (k + 1)
  refine ⟨a', hpost, ?_⟩
  change Yields none σ k (.delay (axis S.rerun.policy) S.rerun ρ' e next') a'
  rw [S.rerun_axis haxis]
  exact hyields hyields'

theorem cell {tag : Nat} {x y : Thunk} {next : Value → Plan α}
    (hp : (next (.cons tag x y)).FollowsTo S post W a) :
    Plan.FollowsTo S post W (.cell x y next) a := by
  intro W' hW q hq σ k
  cases hq with
  | cell hhead htail _ hnext =>
      obtain ⟨a', hpost, hyields⟩ :=
        hp W' hW _ (hnext W' (.refl W') _ _ (.cons hhead htail)) σ (k + 1)
      exact ⟨a', hpost, .cell hyields⟩

theorem closure {tag : Nat} {lambda : Lambda} {ρ : Env} {next : Value → Plan α}
    (hp : (next (.closure tag lambda ρ)).FollowsTo S post W a) :
    Plan.FollowsTo S post W (.closure lambda ρ next) a := by
  intro W' hW q hq σ k
  cases hq with
  | closure henv hnext =>
      obtain ⟨a', hpost, hyields⟩ :=
        hp W' hW _ (hnext W' (.refl W') _ _ (.closure henv)) σ (k + 1)
      exact ⟨a', hpost, .closure hyields⟩

theorem extend {store : Store} {ρ : Env} {bs : List (Name × Thunk)} {next : Env → Plan α}
    (hp : (next (store.extend ρ bs).1).FollowsTo S post W a) :
    Plan.FollowsTo S post W (.extend ρ bs next) a := by
  intro W' hW q hq σ k
  cases hq with
  | extend henv hbs hnext =>
      obtain ⟨a', hpost, hyields⟩ :=
        hp W' hW _ (hnext W' (.refl W') _ _ (henv.framed hbs store (σ ++ [k]))) σ (k + 1)
      exact ⟨a', hpost, .extend hyields⟩

theorem compare {todo : List Comparison} {t : Bool} {next : Bool → Plan α}
    (ht : ComparesTo S W todo t) (hp : (next t).FollowsTo S post W a) :
    Plan.FollowsTo S post W (.compare todo next) a := by
  intro W' hW q hq σ k
  cases hq with
  | compare htodo hnext =>
      obtain ⟨a', hpost, hyields⟩ := hp W' hW _ (hnext W' (.refl W') t) σ (k + 1)
      exact ⟨a', hpost, .compare (ht W' hW _ htodo (σ ++ [k])) hyields⟩

end Plan.FollowsTo

section

variable {S : Setting} {W : Holdings} {n m : Nat} {s s' : State}

/-- A plan can be followed again if evaluating and comparing can be done over.  One plan that it is
related to tells that all data in it are known. -/
theorem follow_replays (hn : EvalReplays S n) (hm : CompareReplays S n m) {α β : Type}
    {post : (unfoldKinship S).World → α → β → Prop} {W : (unfoldKinship S).World} {p : Plan α}
    {q : Plan β} (hrel : Plan.Related (unfoldKinship S) post W p q) {a : α}
    (hs : Faithful S W s.store)
    (hrun : p.follow (evalInFull n) (compareInFull n m) s = .ok a s') :
    ∃ W' : Holdings, Holdings.LeadsTo S W W' s' ∧ p.FollowsTo S post W' a := by
  -- In each case what is claimed of the request is kept while the rest of the plan is followed.
  induction hrel generalizing s with
  | done =>
      cases hrun
      exact ⟨_, ⟨.refl _, hs⟩, .done⟩
  | fail => cases hrun
  | @count W step p q _ ih =>
      obtain ⟨W', hleads, hp⟩ := ih (s := { s with counters := step s.counters }) hs hrun
      exact ⟨W', hleads, hp.count⟩
  | @eval W ρ ρ' e next next' henv _ ih =>
      obtain ⟨v, s₁, heval, hrest⟩ := Eval.bind_eq_ok.1 hrun
      obtain ⟨W₁, h₁, hv⟩ := hn hs henv heval
      obtain ⟨v', hv', -⟩ := hv W₁ (.refl W₁) ρ' (henv.mono h₁.le) []
      obtain ⟨W₂, h₂, hp⟩ := ih W₁ h₁.le v v' hv' h₁.faithful hrest
      exact ⟨W₂, h₁.trans h₂, .eval (hv.mono h₂.le) hp⟩
  | @force W x x' next next' hthunk _ ih =>
      obtain ⟨v, s₁, hforce, hrest⟩ := Eval.bind_eq_ok.1 hrun
      obtain ⟨W₁, h₁, hv⟩ := force_replays hn hs hthunk hforce
      obtain ⟨v', hv', -⟩ := hv W₁ (.refl W₁) x' (hthunk.mono h₁.le) []
      obtain ⟨W₂, h₂, hp⟩ := ih W₁ h₁.le v v' hv' h₁.faithful hrest
      exact ⟨W₂, h₁.trans h₂, .force (hv.mono h₂.le) hp⟩
  | @delay W axis ρ ρ' e next next' haxis henv _ ih =>
      obtain ⟨x, s₁, hdelay, hrest⟩ := Eval.bind_eq_ok.1 hrun
      obtain ⟨W₁, h₁, hx⟩ := delay_replays hn hs henv hdelay
      obtain ⟨x', hx', -⟩ := hx W₁ (.refl W₁) ρ' (henv.mono h₁.le) [] 0
      obtain ⟨W₂, h₂, hp⟩ := ih W₁ h₁.le x x' hx' h₁.faithful hrest
      exact ⟨W₂, h₁.trans h₂, .delay (hx.mono h₂.le) hp⟩
  | @cell W x x' y y' next next' hhead htail _ _ ih =>
      obtain ⟨tag, s₁, hfresh, hrest⟩ := Eval.bind_eq_ok.1 hrun
      cases hfresh
      have hfresh : Faithful S W s.store.freshTag.2 := hs.of_cells rfl
      obtain ⟨W₂, h₂, hp⟩ := ih W (.refl W) _ (.cons 0 x' y') (.cons hhead htail) hfresh hrest
      exact ⟨W₂, h₂, .cell hp⟩
  | @closure W lambda ρ ρ' next next' henv _ ih =>
      obtain ⟨tag, s₁, hfresh, hrest⟩ := Eval.bind_eq_ok.1 hrun
      cases hfresh
      have hfresh : Faithful S W s.store.freshTag.2 := hs.of_cells rfl
      obtain ⟨W₂, h₂, hp⟩ := ih W (.refl W) _ (.closure 0 lambda ρ') (.closure henv) hfresh hrest
      exact ⟨W₂, h₂, .closure hp⟩
  | @extend W ρ ρ' bs bs' next next' henv hbs _ ih =>
      obtain ⟨inner, s₁, hextend, hrest⟩ := Eval.bind_eq_ok.1 hrun
      cases hextend
      obtain ⟨W₂, h₂, hp⟩ := ih W (.refl W) _ _ (henv.framed hbs s.store [])
        (hs.of_cells (s.store.extend_cells ρ bs)) hrest
      exact ⟨W₂, h₂, .extend hp⟩
  | @compare W todo todo' next next' htodo _ ih =>
      obtain ⟨t, s₁, hcompare, hrest⟩ := Eval.bind_eq_ok.1 hrun
      obtain ⟨W₁, h₁, ht⟩ := hm hs htodo hcompare
      obtain ⟨W₂, h₂, hp⟩ := ih W₁ h₁.le t h₁.faithful hrest
      exact ⟨W₂, h₁.trans h₂, .compare (ht.mono h₂.le) hp⟩

/-! ## Comparisons -/

variable {todo : List Comparison} {t : Bool}

/-- Meetings leave the same to be compared when they are met again.  If a thing meets itself there,
what follows has the same outcome by itself. -/
theorem meeting_replays (hn : EvalReplays S n) (hm : CompareReplays S n m)
    {meeting meeting' : Meeting} {todo' : List Comparison} (hs : Faithful S W s.store)
    (hmeeting : (unfoldKinship S).Meets W meeting meeting') (htodo : UnfoldedQueue S W todo todo')
    (hrun : (meeting.plan todo).follow (evalInFull n) (compareInFull n m) s = .ok t s') :
    ∃ W', W.LeadsTo S W' s' ∧ ∀ W'', W'.le W'' → ∀ meeting' todo',
      (unfoldKinship S).Meets W'' meeting meeting' → UnfoldedQueue S W'' todo todo' →
        (∀ σ, Yields none σ 0 (meeting'.plan todo') t) ∧ (meeting'.IsReflexive →
          ∀ σ, Yields none σ 0 (stepPlan Comparison.coincides todo') t) := by
  cases hmeeting with
  | equal =>
      obtain ⟨t', s₁, hcompare, hpure⟩ := Eval.bind_eq_ok.1 hrun
      cases hpure
      obtain ⟨W', hleads, ht⟩ := hm hs htodo hcompare
      refine ⟨W', hleads, fun W'' hW meeting' todo' hmeeting htodo => ?_⟩
      cases hmeeting with
      | equal => exact ⟨fun σ => .compare (ht W'' hW _ htodo _) .done, fun _ => ht W'' hW _ htodo⟩
  | unequal =>
      cases hrun
      refine ⟨W, ⟨.refl W, hs⟩, fun W'' _ meeting' todo' hmeeting _ => ?_⟩
      cases hmeeting with
      | unequal => exact ⟨fun σ => .done, False.elim⟩
  | envs hleft hright =>
      obtain ⟨t', s₁, hcompare, hpure⟩ := Eval.bind_eq_ok.1 hrun
      cases hpure
      obtain ⟨W', hleads, ht⟩ := hm hs (.cons (.envs hleft hright) htodo) hcompare
      refine ⟨W', hleads, fun W'' hW meeting' todo' hmeeting htodo => ?_⟩
      cases hmeeting with
      | envs hleft hright =>
          refine ⟨fun σ => .compare (ht W'' hW _ (.cons (.envs hleft hright) htodo) _) .done, ?_⟩
          exact fun hsame => ht W'' hW _ (.skip (.envs hleft hright) hsame htodo)
  -- Both parts are forced before anything is compared, and can be forced again.
  | @parts x y x' y' c c' hx hy hc =>
      obtain ⟨v, s₁, hforce, hrun⟩ := Eval.bind_eq_ok.1 hrun
      obtain ⟨u, s₂, hforce', hrun⟩ := Eval.bind_eq_ok.1 hrun
      obtain ⟨t', s₃, hcompare, hpure⟩ := Eval.bind_eq_ok.1 hrun
      cases hpure
      obtain ⟨W₂, h₂, hv, hu⟩ := forces_replay hn hs hx hy hforce hforce'
      obtain ⟨v', hv', -⟩ := hv W₂ (.refl W₂) x' (hx.mono h₂.le) []
      obtain ⟨u', hu', -⟩ := hu W₂ (.refl W₂) y' (hy.mono h₂.le) []
      have hqueue : UnfoldedQueue S W₂ (.values v u :: c :: todo) (.values v' u' :: c' :: todo') :=
        .cons (.values hv' hu') ((unfoldKinship S).todo_mono h₂.le (.cons hc htodo))
      obtain ⟨W₃, h₃, ht⟩ := hm h₂.faithful hqueue hcompare
      refine ⟨W₃, h₂.trans h₃, fun W'' hW meeting' todo' hmeeting htodo => ?_⟩
      have hW₂ := h₃.le.trans hW
      cases hmeeting with
      | parts hx hy hc =>
          constructor
          · intro σ
            obtain ⟨v', hv', hyields⟩ := hv W'' hW₂ _ hx (σ ++ [0])
            obtain ⟨u', hu', hyields'⟩ := hu W'' hW₂ _ hy (σ ++ [1])
            have hyields'' := ht W'' hW _ (.cons (.values hv' hu') (.cons hc htodo)) (σ ++ [2])
            exact hyields.force (hyields'.force (.compare hyields'' .done))
          · rintro ⟨rfl, hsame⟩
            obtain ⟨w, hvw, huw⟩ := (hv.mono hW₂).twins (hu.mono hW₂) hx hy
            exact ht W'' hW _ (.skip (.values hvw huw) rfl (.skip hc hsame htodo))

/-- Whatever a comparison unfolds to from now on, its plan has this outcome at any seed, and so have
the comparisons behind it if a thing is compared with itself there. -/
def StepsTo (S : Setting) (W : Holdings) (c : Comparison) (todo : List Comparison) (t : Bool) :
    Prop :=
  ∀ W' : Holdings, W.le W' → ∀ c' todo', (unfoldKinship S).Comparable W' c c' →
    UnfoldedQueue S W' todo todo' → (∀ σ, Yields none σ 0 (c'.plan todo') t) ∧
      (c'.IsReflexive → ∀ σ, Yields none σ 0 (stepPlan Comparison.coincides todo') t)

theorem tails_replays (hn : EvalReplays S n) (hm : CompareReplays S n m) {x y x' y' : Thunk}
    {todo' : List Comparison} (hs : Faithful S W s.store) (hx : x.Unfolds S W x')
    (hy : y.Unfolds S W y') (htodo : UnfoldedQueue S W todo todo')
    (hrun : ((Comparison.tails x y).plan todo).follow (evalInFull n) (compareInFull n m) s =
      .ok t s') :
    ∃ W', W.LeadsTo S W' s' ∧ StepsTo S W' (.tails x y) todo t := by
  simp only [Comparison.plan, Plan.follow, Plan.follow_lift] at hrun
  obtain ⟨v, s₁, hforce, hrun⟩ := Eval.bind_eq_ok.1 hrun
  obtain ⟨v₁, s₂, hlist, hrun⟩ := Eval.bind_eq_ok.1 hrun
  obtain ⟨htail, rfl⟩ := Eval.lift_eq_ok.1 hlist
  obtain ⟨u, s₃, hforce', hrun⟩ := Eval.bind_eq_ok.1 hrun
  obtain ⟨u₁, s₄, hlist', hrun⟩ := Eval.bind_eq_ok.1 hrun
  obtain ⟨htail', rfl⟩ := Eval.lift_eq_ok.1 hlist'
  obtain ⟨t', s₅, hcompare, hpure⟩ := Eval.bind_eq_ok.1 hrun
  cases hpure
  obtain ⟨hvlist, rfl⟩ := asTail_eq_ok.1 htail
  obtain ⟨hulist, rfl⟩ := asTail_eq_ok.1 htail'
  obtain ⟨W₂, h₂, hv, hu⟩ := forces_replay hn hs hx hy hforce hforce'
  obtain ⟨v', hv', -⟩ := hv W₂ (.refl W₂) x' (hx.mono h₂.le) []
  obtain ⟨u', hu', -⟩ := hu W₂ (.refl W₂) y' (hy.mono h₂.le) []
  have hqueue : UnfoldedQueue S W₂ (.values v₁ u₁ :: todo) (.values v' u' :: todo') :=
    .cons (.values hv' hu') ((unfoldKinship S).todo_mono h₂.le htodo)
  obtain ⟨W₃, h₃, ht⟩ := hm h₂.faithful hqueue hcompare
  refine ⟨W₃, h₂.trans h₃, fun W'' hW c' todo' hc htodo => ?_⟩
  have hW₂ := h₃.le.trans hW
  cases hc with
  | tails hleft hright =>
      have hx := hleft.layer.tails
      have hy := hright.layer.tails
      constructor
      · intro σ
        obtain ⟨v', hv', hyields⟩ := hv W'' hW₂ _ hx (σ ++ [0])
        obtain ⟨u', hu', hyields'⟩ := hu W'' hW₂ _ hy (σ ++ [1])
        have hyields'' := ht W'' hW _ (.cons (.values hv' hu') htodo) (σ ++ [2])
        refine hyields.force ?_
        rw [asTail_eq_ok.2 ⟨hv'.layer.isList_eq.trans hvlist, rfl⟩]
        refine hyields'.force ?_
        rw [asTail_eq_ok.2 ⟨hu'.layer.isList_eq.trans hulist, rfl⟩]
        exact .compare hyields'' .done
      · rintro ⟨rfl⟩
        obtain ⟨w, hvw, huw⟩ := (hv.mono hW₂).twins (hu.mono hW₂) hx hy
        exact ht W'' hW _ (.skip (.values hvw huw) rfl htodo)

theorem comparison_replays (hn : EvalReplays S n) (hm : CompareReplays S n m) {c c' : Comparison}
    {todo' : List Comparison} (hs : Faithful S W s.store)
    (hc : (unfoldKinship S).Comparable W c c') (htodo : UnfoldedQueue S W todo todo')
    (hrun : (c.plan todo).follow (evalInFull n) (compareInFull n m) s = .ok t s') :
    ∃ W', W.LeadsTo S W' s' ∧ StepsTo S W' c todo t := by
  cases hc with
  | values ha hb =>
      have hmeeting := (unfoldKinship S).values_meet (W := W) ha hb
      obtain ⟨W', hleads, h⟩ := meeting_replays hn hm hs hmeeting htodo hrun
      refine ⟨W', hleads, fun W'' hW c' todo' hc htodo => ?_⟩
      cases hc with
      | @values _ _ a' b' ha hb =>
          obtain ⟨hplan, hskip⟩ :=
            h W'' hW _ todo' ((unfoldKinship S).values_meet (W := W'') ha hb) htodo
          refine ⟨hplan, ?_⟩
          rintro ⟨rfl⟩
          exact hskip a'.meet_self_isReflexive
  | envs ha hb =>
      have hmeeting := (unfoldKinship S).envs_meet (W := W) ha hb
      obtain ⟨W', hleads, h⟩ := meeting_replays hn hm hs hmeeting htodo hrun
      refine ⟨W', hleads, fun W'' hW c' todo' hc htodo => ?_⟩
      cases hc with
      | @envs _ _ a' b' ha hb =>
          obtain ⟨hplan, hskip⟩ :=
            h W'' hW _ todo' ((unfoldKinship S).envs_meet (W := W'') ha hb) htodo
          refine ⟨hplan, ?_⟩
          rintro ⟨rfl⟩
          exact hskip a'.meet_self_isReflexive
  | tails hleft hright =>
      exact tails_replays hn hm hs hleft.layer.tails hright.layer.tails htodo hrun

/-- Comparing can be done over if evaluating can. -/
theorem compare_replays (hn : EvalReplays S n) (m : Nat) : CompareReplays S n m := by
  induction m with
  | zero =>
      intro W s s' todo todo' t hs hqueue hrun
      cases hrun
  | succ m ih =>
      intro W s s' todo todo' t hs hqueue hrun
      cases todo with
      | nil =>
          cases hrun
          refine ⟨W, ⟨.refl W, hs⟩, fun W' _ todo' hqueue σ => ?_⟩
          cases hqueue
          exact .done
      | cons c rest =>
          obtain ⟨c', rest', hc, hrest⟩ : ∃ c' rest', (unfoldKinship S).Comparable W c c' ∧
              UnfoldedQueue S W rest rest' := by
            cases hqueue with
            | cons hc hrest => exact ⟨_, _, hc, hrest⟩
            | skip hc _ hrest => exact ⟨_, _, hc, hrest⟩
          obtain ⟨W', hleads, hsteps⟩ := comparison_replays hn ih hs hc hrest hrun
          refine ⟨W', hleads, fun W'' hW todo' hqueue σ => ?_⟩
          cases hqueue with
          | skip hc hsame hrest => exact (hsteps W'' hW _ _ hc hrest).2 hsame σ
          | cons hc hrest =>
              obtain ⟨hplan, hskip⟩ := hsteps W'' hW _ _ hc hrest
              -- Where the account takes both sides for one, it goes on with what is behind.
              rw [stepPlan]
              split
              · next hcoincides =>
                  have hsame := Comparison.isReflexive_of_coincides hcoincides
                  exact .compare (hskip hsame (σ ++ [0])) .done
              · exact hplan σ

/-! ## Expressions and programs -/

/-- Evaluations can be done over, whatever their fuel. -/
theorem eval_replays (S : Setting) (n : Nat) : EvalReplays S n := by
  induction n with
  | zero =>
      intro W s s' ρ ρ' e v hs henv hrun
      cases hrun
  | succ n ih =>
      intro W s s' ρ ρ' e v hs henv hrun
      obtain ⟨-, s₁, hbody, rfl⟩ := Eval.within_eq_ok.1 hrun
      have hrel : ∀ {W' : Holdings} {ρ' : Env}, ρ.Unfolds S W' ρ' →
          Plan.Related (unfoldKinship S) (unfoldKinship S).value W'
            (.count Counters.countExpression (e.plan S ρ))
            (.count Counters.countExpression (e.plan S.rerun ρ')) :=
        fun henv => .count ((unfoldKinship S).plan_related henv e)
      obtain ⟨W', hleads, hv⟩ := follow_replays ih (compare_replays ih n) (hrel henv)
        (s := { s with depth := s.depth.deeper }) hs hbody
      refine ⟨W', ⟨hleads.le, hleads.faithful⟩, fun W'' hW ρ'' henv' σ => ?_⟩
      obtain ⟨v', hv', hyields⟩ := hv W'' hW _ (hrel henv') σ 0
      cases hyields with
      | count hyields => exact ⟨v', hv', hyields⟩

/-- A program that succeeds though its comparisons look through everything yields the same text by
the account that keeps no results. -/
theorem program_replays {fuel printDepth : Nat} {root : Expr} {store : Store} {text : String}
    (hrun : runWith Comparison.inFull fuel ⟨S, printDepth⟩ root (State.start store) = .ok text s') :
    Yields none [] 0 (programPlan ⟨S.rerun, printDepth⟩ root) text := by
  have heval : EvalReplays S fuel := eval_replays S fuel
  have hrel := fun W => (unfoldKinship S).program_related (W := W) printDepth root
  obtain ⟨W', -, htext⟩ := follow_replays heval (compare_replays heval fuel) (hrel fun _ => none)
    (s := State.start store) (.empty store) hrun
  obtain ⟨text', rfl, hyields⟩ := htext W' (.refl W') _ (hrel W') [] 0
  exact hyields

end

end PolicyEval
