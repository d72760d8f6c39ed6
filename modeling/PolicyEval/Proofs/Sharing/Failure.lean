import PolicyEval.Proofs.Eval.Ending
import PolicyEval.Proofs.Eval.Residue
import PolicyEval.Proofs.Sharing.Completeness

/-!
# How the account fails

Without a limit the account also says how an evaluation fails.  A plan fails if some of its requests
are met and the next one fails.  A thunk that is evaluated once fails under its own seed, wherever it
is forced, so it fails in the same way each time.

An evaluation that fails leaves its store in order.  A thunk whose evaluation failed is not evaluated
yet, so what was made on the way must not have taken the seeds below its mark.  It has not: the seeds
of the request that forced the thunk can be given to it, since a run is followed by the account at
any seed.

* `Faults` — how a plan fails by the account.
* `Poised.ok_followed`, `Poised.fault_followed` — runs that succeed and runs that fail are followed by
  the account, and their last state is one from which the account can go on.
* `ends_of_faults` — a plan that fails by the account fails in the same way when it is run.
-/

namespace PolicyEval

/-- How a plan fails by the account: its first requests are met at the seed `σ ++ [0]`, and the next
one fails at the seed `σ ++ [1]` or, in a thunk that is evaluated once, at the seed of the thunk,
which then yields nothing there. -/
inductive Faults : {α : Type} → Seed → Plan α → Fault → Prop
  | fail {α : Type} {σ : Seed} {p : Plan α} {j : Nat} {cause : FaultCause}
      (h : Yields none (σ ++ [0]) 0 (p.ahead j) (.fail cause)) : Faults σ p ⟨cause, none⟩
  | eval {α : Type} {σ : Seed} {p : Plan α} {j : Nat} {setting : Setting} {ρ : Env} {e : Expr}
      {next : Value → Plan α} {f : Fault}
      (h : Yields none (σ ++ [0]) 0 (p.ahead j) (.eval setting ρ e next))
      (hfault : Faults (σ ++ [1]) (e.plan setting ρ) f) : Faults σ p (f.leaving e.span)
  | delay {α : Type} {σ : Seed} {p : Plan α} {j : Nat} {setting : Setting} {ρ : Env} {e : Expr}
      {next : Thunk → Plan α} {f : Fault}
      (h : Yields none (σ ++ [0]) 0 (p.ahead j) (.delay .value setting ρ e next))
      (hfault : Faults (σ ++ [1]) (e.plan setting ρ) f) : Faults σ p (f.leaving e.span)
  | force {α : Type} {σ τ : Seed} {p : Plan α} {j : Nat} {x : Thunk} {setting : Setting} {ρ : Env}
      {e : Expr} {next : Value → Plan α} {f : Fault}
      (h : Yields none (σ ++ [0]) 0 (p.ahead j) (.force x next))
      (hhome : x.home (σ ++ [1]) = some (τ, ⟨setting, ρ, e⟩))
      (hnever : ∀ v, ¬Yields none τ 0 (e.plan setting ρ) v)
      (hfault : Faults τ (e.plan setting ρ) f) : Faults σ p (f.leaving e.span)
  | compare {α : Type} {σ : Seed} {p : Plan α} {j : Nat} {todo : List Comparison}
      {next : Bool → Plan α} {f : Fault}
      (h : Yields none (σ ++ [0]) 0 (p.ahead j) (.compare todo next))
      (hfault : Faults (σ ++ [1]) (stepPlan Comparison.coincides todo) f) : Faults σ p f

/-- A thunk fails that is forced at a seed, and yields nothing. -/
inductive Thunk.Faults (σ : Seed) (x : Thunk) : Fault → Prop
  | run {τ : Seed} {setting : Setting} {ρ : Env} {e : Expr} {f : Fault}
      (hhome : x.home σ = some (τ, ⟨setting, ρ, e⟩))
      (hnever : ∀ v, ¬PolicyEval.Yields none τ 0 (e.plan setting ρ) v)
      (hfault : PolicyEval.Faults τ (e.plan setting ρ) f) : Thunk.Faults σ x (f.leaving e.span)

/-! ## One outcome -/

/-- What settles has no other outcome, whatever the fuel. -/
theorem Settles.ok_of_run {α : Type} {body : Nat → Nat → Eval α} {s : State}
    {good : α → State → Prop} (h : Settles false body s good) {n m : Nat}
    (hextends : ∀ n' m', n ≤ n' → m ≤ m' → Eval.Extends (body n' m') (body n m))
    (hended : ¬Eval.IsStarved (body n m s)) : ∃ a s', body n m s = .ok a s' ∧ good a s' := by
  rcases h with ⟨a, s', hgood, N, hN⟩ | ⟨htolerant, -⟩
  · have hmore := (hextends (max n N) (max m N) (by omega) (by omega) s).resolve_left hended
    rw [hN _ _ (by omega) (by omega)] at hmore
    exact ⟨a, s', hmore.symm, hgood⟩
  · cases htolerant

theorem run_extends_of_le {α : Type} (q : Plan α) {n n' m m' : Nat} (hn : n ≤ n') (hm : m ≤ m') :
    Eval.Extends (q.run (eval n') m') (q.run (eval n) m) := by
  have heval := fun setting ρ e => eval_extends hn setting ρ e
  exact run_extends heval (compareAll_extends heval hm) q

/-- Mirrored data with marks in the part of a zone in which a request is met. -/
abbrev requestKinship (setting : Setting) (X : Seed → Prop) (σ : Seed) (k : Nat) : Kinship :=
  followKinship setting (Seed.inner X σ k (σ ++ [k]))

section

variable {setting : Setting} {X : Seed → Prop} {W : Matching} {s s' : State} {σ : Seed} {k : Nat}

/-! ## Runs that succeed -/

/-- A successful run of a plan is followed by the account, and the plan that made the request can go
on from its last state. -/
theorem Poised.ok_followed (h : Poised setting X W s σ k) (hlimit : setting.maxDepth = none)
    {α β : Type}
    {post : (requestKinship setting X σ k).World → α → β → Prop}
    {post' : (Pairing.same setting).kinship.World → β → α → Prop} {p : Plan α} {q : Plan β}
    (hfollow : Plan.Related (requestKinship setting X σ k) post W p q)
    (hsound : Plan.Related (Pairing.same setting).kinship post' W q p) {n m : Nat} {b : β}
    (hrun : q.run (eval n) m s = .ok b s') :
    ∃ a W', Yields none (σ ++ [k]) 0 p a ∧ post W' a b ∧ Continues setting X W s σ k W' s' := by
  have heval : (Pairing.same setting).EvalYields false n :=
    Pairing.eval_yields (Pairing.same_follows setting) n
  have hagrees : (Pairing.same setting).Agrees false W s := ⟨h.placed.tracks, nofun⟩
  obtain ⟨-, a, -, -, hyields⟩ := Pairing.run_yields (Pairing.same_follows setting) heval
    (Pairing.compare_yields (Pairing.same_follows setting) heval m) hsound hagrees hrun (σ ++ [k]) 0
  have hall : SettlesAs setting false none (σ ++ [k]) 0 p a := settles_of_yields hyields
  have hsettles := hall hfollow h.request (.inr hlimit)
  obtain ⟨b', s₁, hrun', W', hpost, hreaches⟩ := hsettles.ok_of_run
    (fun n' m' hn hm => run_extends_of_le q hn hm) (hrun ▸ Eval.not_isStarved_ok)
  rw [hrun] at hrun'
  cases hrun'
  exact ⟨a, W', hyields, hpost, h.resume hreaches⟩

/-- An expression that fails yields nothing by the account. -/
theorem Poised.not_yields_of_fault (h : Poised setting X W s σ 0)
    (hlimit : setting.maxDepth = none) {ρ ρ' : Env} {e : Expr}
    (henv : ρ'.Mirrors (.same setting) W ρ ∧ ρ.Within X) {n : Nat} {f : Fault}
    (hrun : eval n setting ρ' e s = .error (.fault f) s') (v : Value) :
    ¬Yields none σ 0 (e.plan setting ρ) v := by
  intro hyields
  have hall : SettlesAs setting false none σ 0 (e.plan setting ρ) v := settles_of_yields hyields
  have hsettles := PolicyEval.eval_settles below_none hall henv h (.inr hlimit)
  obtain ⟨u, s₁, hrun', -⟩ := hsettles.ok_of_run (m := 0)
    (fun n' _ hn _ => eval_extends hn setting ρ' e) (hrun ▸ Eval.not_isStarved_fault)
  rw [hrun] at hrun'
  cases hrun'

/-! ## Runs that fail -/

/-- Evaluations with this much fuel that fail are followed by the account. -/
def EvalFaults (setting : Setting) (n : Nat) : Prop :=
  ∀ {X : Seed → Prop} {W : Matching} {s s' : State} {σ : Seed} {ρ ρ' : Env} {e : Expr} {f : Fault},
    Poised setting X W s σ 0 → ρ'.Mirrors (.same setting) W ρ ∧ ρ.Within X →
      eval n setting ρ' e s = .error (.fault f) s' →
        ∃ g W', f = g.leaving e.span ∧ Faults σ (e.plan setting ρ) g ∧
          Reaches (.same setting) X W s W' s'

/-- Comparisons with this much fuel that fail are followed by the account. -/
def CompareFaults (setting : Setting) (n m : Nat) : Prop :=
  ∀ {X : Seed → Prop} {W : Matching} {s s' : State} {σ : Seed} {todo todo' : List Comparison}
    {f : Fault}, Poised setting X W s σ 0 → (followKinship setting X).todo W todo todo' →
      compareAll (eval n) m todo' s = .error (.fault f) s' →
        ∃ W', Faults σ (stepPlan Comparison.coincides todo) f ∧
          Reaches (.same setting) X W s W' s'

/-- Running a suspended expression fails as evaluating it does. -/
theorem suspension_faults {n : Nat} (hn : EvalFaults setting n) (h : Poised setting X W s σ 0)
    {ρ ρ' : Env} {e : Expr} (henv : ρ'.Mirrors (.same setting) W ρ ∧ ρ.Within X) {f : Fault}
    (hrun : Suspension.run (eval n) ⟨setting, ρ', e⟩ s = .error (.fault f) s') :
    ∃ g W', f = g.leaving e.span ∧ Faults σ (e.plan setting ρ) g ∧
      Reaches (.same setting) X W s W' s' := by
  have hcounted : Poised setting X W { s with counters := s.counters.countForced } σ 0 :=
    ⟨h.zone, h.placed, h.fresh⟩
  obtain ⟨g, W', hf, hfault, hreaches⟩ := hn hcounted henv hrun
  exact ⟨g, W', hf, hfault, hreaches.grows, hreaches.placed, hreaches.kept, hreaches.depth⟩

theorem Eval.force_eq_error {ev : Evaluator} {x : Thunk} {stop : Stop}
    (h : force ev x s = .error stop s') :
    ∃ q : Suspension, (x = .byName q ∨ ∃ address, x = .byNeed address q ∧
      s.store.kept? address = none) ∧ q.run ev s = .error stop s' := by
  cases x with
  | ready v => cases h
  | byName q => exact ⟨q, .inl rfl, h⟩
  | byNeed address q =>
      cases hkept : s.store.kept? address with
      | some v =>
          rw [Eval.force_of_kept hkept] at h
          cases h
      | none =>
          refine ⟨q, .inr ⟨address, rfl, hkept⟩, ?_⟩
          rw [Eval.force_of_pending hkept] at h
          cases hrun : q.run ev s with
          | error stop' s₁ =>
              rw [Eval.bind_of_error hrun] at h
              cases h
              rfl
          | ok v s₁ =>
              -- Keeping a result does not stop.
              rw [Eval.bind_of_ok hrun, Eval.keep_apply] at h
              cases hkept₁ : s₁.store.kept? address <;> rw [hkept₁] at h <;> cases h

/-- A force that fails is followed by the account. -/
theorem Poised.force_faults {n : Nat} (hn : EvalFaults setting n)
    (h : Poised setting X W s σ k) (hlimit : setting.maxDepth = none) {x x' : Thunk}
    (hx : x'.Mirrors (.same setting) W x ∧ x.Within X) {f : Fault}
    (hrun : force (eval n) x' s = .error (.fault f) s') :
    ∃ W', x.Faults (σ ++ [k]) f ∧ Continues setting X W s σ k W' s' := by
  obtain ⟨q, hq, hrun⟩ := Eval.force_eq_error hrun
  obtain ⟨hmirrors, hwithin⟩ := hx
  cases hmirrors with
  | ready => rcases hq with h | ⟨_, h, -⟩ <;> cases h
  | rerun hreruns => exact hreruns.elim
  | @byName ρ' ρ e henv =>
      rcases hq with heq | ⟨_, heq, -⟩ <;> cases heq
      have henv' := h.env_request ⟨henv, hwithin⟩
      obtain ⟨g, W', rfl, hfault, hreaches⟩ := suspension_faults hn h.request henv' hrun
      have hcounted : Poised setting _ W { s with counters := s.counters.countForced } _ 0 :=
        ⟨h.request.zone, h.request.placed, h.request.fresh⟩
      refine ⟨W', .run rfl (fun v => ?_) hfault, h.resume hreaches⟩
      exact hcounted.not_yields_of_fault hlimit henv' hrun v
  | @byNeed address mark ρ' ρ e hcell henv =>
      rcases hq with heq | ⟨_, heq, hpending⟩ <;> cases heq
      -- The account evaluates the thunk under its own seed; the store takes what was made on the
      -- way for a part of the request, so that the seeds of the thunk stay unused.
      have hthunk := h.thunk hcell hwithin.1 hpending
      have henv' := h.env_thunk hcell ⟨henv, hwithin.2⟩
      obtain ⟨g, -, rfl, hfault, -⟩ := suspension_faults hn hthunk henv' hrun
      obtain ⟨-, W', -, -, hreaches⟩ :=
        suspension_faults hn h.request (h.env_request ⟨henv, hwithin.2⟩) hrun
      have hcounted : Poised setting _ W { s with counters := s.counters.countForced } _ 0 :=
        ⟨hthunk.zone, hthunk.placed, hthunk.fresh⟩
      refine ⟨W', .run rfl (fun v => ?_) hfault, h.resume hreaches⟩
      exact hcounted.not_yields_of_fault hlimit henv' hrun v

theorem followKinship_todo_mono {Y : Seed → Prop} (hXY : ∀ υ, X υ → Y υ)
    {todo todo' : List Comparison} (h : (followKinship setting X).todo W todo todo') :
    (followKinship setting Y).todo W todo todo' :=
  List.Forall₂.imp (fun _ _ hc => hc.mono (fun h => ⟨h.1, h.2.mono hXY⟩)
    fun h => ⟨h.1, h.2.mono hXY⟩) h

/-- A step of comparing mirrors the one of the account. -/
theorem stepPlan_mirrored (hfaithful : W.Faithful) {todo todo' : List Comparison}
    (htodo : (followKinship setting X).todo W todo todo') :
    Plan.Related (Pairing.same setting).kinship (fun _ => Eq) W
      (stepPlan Comparison.identical todo') (stepPlan Comparison.coincides todo) := by
  let K := (Pairing.same setting).kinship
  have hflip : ∀ {c c'}, (followKinship setting X).Comparable W c c' → K.Comparable W c' c := by
    intro c c' hc
    cases hc with
    | values ha hb => exact .values ha.1 hb.1
    | tails ha hb => exact .tails ha.1 hb.1
    | envs ha hb => exact .envs ha.1 hb.1
  have hqueue : ∀ {t t'}, (followKinship setting X).todo W t t' → K.todo W t' t := by
    intro t t' h
    induction h with
    | nil => exact .nil
    | cons hc _ ih => exact .cons (hflip hc) ih
  cases htodo with
  | nil => exact .done rfl
  | cons hc hrest =>
      refine Kinship.step_related (K := K) (hqueue hrest) (hflip hc) ?_
      rcases coincides_iff_identical hfaithful hc with heq | ⟨a, ha, rfl, rfl⟩
      · exact .inl heq.symm
      · exact .inr ⟨a, ha, rfl, rfl⟩

/-- A run of a plan that fails is followed by the account, if evaluating and comparing are. -/
theorem Poised.run_faults {n m : Nat} (hn : EvalFaults setting n) (hm : CompareFaults setting n m)
    (h : Poised setting X W s σ 0) (hlimit : setting.maxDepth = none) {α β : Type}
    {post : (requestKinship setting X σ 0).World → α → β → Prop}
    {post' : (Pairing.same setting).kinship.World → β → α → Prop} {p : Plan α} {q : Plan β}
    (hfollow : Plan.Related (requestKinship setting X σ 0) post W p q)
    (hsound : Plan.Related (Pairing.same setting).kinship post' W q p) {f : Fault}
    (hrun : q.run (eval n) m s = .error (.fault f) s') :
    ∃ W', Faults σ p f ∧ Reaches (.same setting) X W s W' s' := by
  -- The run meets some requests and then fails at the next one.  The account yields what the former
  -- come to, and fails at the latter.
  obtain ⟨j, rest, s₁, hprefix, hbreaks⟩ := Plan.stopsAfter_of_run hrun
  obtain ⟨rest', W₁, hyields, hrest, hs₁⟩ :=
    h.ok_followed hlimit (hfollow.ahead j) (hsound.ahead j) hprefix
  cases hbreaks with
  | fail hstop hs =>
      cases hstop
      subst hs
      cases hrest with
      | fail hcause =>
          cases hcause trivial
          exact ⟨W₁, .fail hyields, hs₁.1⟩
  | eval heval =>
      cases hrest with
      | eval henv hnext =>
          have henv' := hs₁.2.env_request ⟨henv.1, henv.2.mono fun _ hυ => hυ.1⟩
          obtain ⟨g, W₂, rfl, hfault, hreaches⟩ := hn hs₁.2.request henv' heval
          exact ⟨W₂, .eval hyields hfault, hs₁.1.trans (hs₁.2.resume hreaches).1⟩
      | fail hcause => cases hcause trivial
  | @delay S _ _ _ heval =>
      obtain ⟨axis, ρ, next', haxis, hsetting, rfl, henv⟩ := hrest.delay_inv_right trivial
      rw [show S = setting from hsetting] at heval
      rw [show axis (followKinship setting _).left.policy = .value from haxis.symm] at hyields
      have henv' := hs₁.2.env_request ⟨henv.1, henv.2.mono fun _ hυ => hυ.1⟩
      obtain ⟨g, W₂, rfl, hfault, hreaches⟩ := hn hs₁.2.request henv' heval
      exact ⟨W₂, .delay hyields hfault, hs₁.1.trans (hs₁.2.resume hreaches).1⟩
  | force hforce =>
      cases hrest with
      | force hthunk hnext =>
          obtain ⟨W₂, hfault, hs₂⟩ := hs₁.2.force_faults hn hlimit
            ⟨hthunk.1, hthunk.2.mono fun _ hυ => hυ.1⟩ hforce
          cases hfault with
          | run hhome hnever hfault =>
              exact ⟨W₂, .force hyields hhome hnever hfault, hs₁.1.trans hs₂.1⟩
      | fail hcause => cases hcause trivial
  | compare hcompare =>
      cases hrest with
      | compare htodo hnext =>
          have htodo' := hs₁.2.todo_request (followKinship_todo_mono (fun _ hυ => hυ.1) htodo)
          obtain ⟨W₂, hfault, hreaches⟩ := hm hs₁.2.request htodo' hcompare
          exact ⟨W₂, .compare hyields hfault, hs₁.1.trans (hs₁.2.resume hreaches).1⟩
      | fail hcause => cases hcause trivial

/-- Comparisons that fail are followed by the account, if evaluations are. -/
theorem compare_faults (hlimit : setting.maxDepth = none) {n : Nat} (hn : EvalFaults setting n)
    (m : Nat) : CompareFaults setting n m := by
  induction m with
  | zero =>
      intro X W s s' σ todo todo' f h htodo hrun
      cases hrun
  | succ m ih =>
      intro X W s s' σ todo todo' f h htodo hrun
      rw [compareAll_succ] at hrun
      have hfollow := stepPlan_related h.placed.faithful (h.todo_request htodo)
      exact h.run_faults hn ih hlimit hfollow (stepPlan_mirrored h.placed.faithful htodo) hrun

/-- Evaluations that fail are followed by the account, whatever their fuel. -/
theorem eval_faults (hlimit : setting.maxDepth = none) (n : Nat) : EvalFaults setting n := by
  induction n with
  | zero =>
      intro X W s s' σ ρ ρ' e f h henv hrun
      cases hrun
  | succ n ih =>
      intro X W s s' σ ρ ρ' e f h henv hrun
      have hs₁ : Poised setting X W s.entered σ 0 := ⟨h.zone, h.placed, h.fresh⟩
      rw [eval_eq_leaving_run (hlimit ▸ Depth.hasRoom_none _)] at hrun
      cases hbody : (e.plan setting ρ').run (eval n) n s.entered with
      | ok v s₂ =>
          rw [hbody] at hrun
          cases hrun
      | error stop s₂ =>
          rw [hbody] at hrun
          cases stop with
          | outOfFuel => cases hrun
          | fault g =>
              cases hrun
              have hfollow := Kinship.plan_related
                (K := requestKinship setting X σ 0) (h.env_request henv) e
              have hsound := Kinship.plan_related
                (K := (Pairing.same setting).kinship) henv.1 e
              obtain ⟨W', hfault, hreaches⟩ := hs₁.run_faults ih (compare_faults hlimit ih n) hlimit
                hfollow hsound hbody
              refine ⟨g, W', rfl, hfault, hreaches.grows, hreaches.placed, hreaches.kept, ?_⟩
              have hdepth : s₂.depth.current = s.depth.current + 1 := hreaches.depth
              simp only [Depth.leave, hdepth, Nat.add_sub_cancel]

/-! ## What fails by the account fails when it is run -/

/-- The computation fails. -/
abbrev EndsIn {α : Type} (f : Fault) (body : Nat → Nat → Eval α) (s : State) : Prop :=
  Ends body s fun outcome => ∃ s', outcome = .error (.fault f) s'

/-- Whatever plan is related to the given one, in whatever zone, fails in this way. -/
def FaultsAs (setting : Setting) {α : Type} (σ : Seed) (p : Plan α) (f : Fault) : Prop :=
  ∀ {X : Seed → Prop} {β : Type}
    {post : (requestKinship setting X σ 0).World → α → β → Prop}
    {W : Matching} {q : Plan β} {s : State}, Poised setting X W s σ 0 →
      Plan.Related (requestKinship setting X σ 0) post W p q →
        EndsIn f (fun n m => q.run (eval n) m) s

theorem EndsIn.bind {α β : Type} {f : Fault} {first : Nat → Nat → Eval α} (h : EndsIn f first s)
    (next : α → Nat → Nat → Eval β) : EndsIn f (fun n m => first n m >>= fun a => next a n m) s := by
  refine Ends.bind h (fun a s' ha => ?_) fun stop s' hstop => ?_
  · obtain ⟨_, ⟨⟩⟩ := ha
  · obtain ⟨s₁, ⟨⟩⟩ := hstop
    exact ⟨_, rfl⟩

/-- If the first requests of a plan are met by the account, a related plan fails if what is left of
it does. -/
theorem Poised.endsIn_of_ahead (h : Poised setting X W s σ 0) (hlimit : setting.maxDepth = none)
    {α β : Type}
    {post : (requestKinship setting X σ 0).World → α → β → Prop}
    {p : Plan α} {q : Plan β}
    (hfollow : Plan.Related (requestKinship setting X σ 0) post W p q)
    {j : Nat} {rest : Plan α} (hyields : Yields none (σ ++ [0]) 0 (p.ahead j) rest) {f : Fault}
    (hrest : ∀ {rest' s₁} {W₁ : (requestKinship setting X σ 0).World},
      Plan.Related (requestKinship setting X σ 0) post W₁ rest rest' →
        Poised setting X W₁ s₁ σ 1 → EndsIn f (fun n m => rest'.run (eval n) m) s₁) :
    EndsIn f (fun n m => q.run (eval n) m) s := by
  have hall : SettlesAs setting false none (σ ++ [0]) 0 (p.ahead j) rest :=
    settles_of_yields hyields
  rcases hall (hfollow.ahead j) h.request (.inr hlimit) with
    ⟨rest', s₁, ⟨W₁, hrel, hreaches⟩, N, hN⟩ | ⟨htolerant, -⟩
  · obtain ⟨outcome, hended, hexpected, M, hM⟩ := hrest hrel (h.resume hreaches).2
    refine ⟨outcome, hended, hexpected, max N M, fun n m hn hm => ?_⟩
    have hfirst := hN n m (by omega) (by omega)
    have hlast := hM n m (by omega) (by omega)
    dsimp only at hfirst hlast ⊢
    rw [Plan.run_ahead (eval n) m j q, Eval.bind_of_ok hfirst, hlast]
  · cases htolerant

/-- Evaluating an expression fails if its plan does. -/
theorem Poised.eval_endsIn (h : Poised setting X W s σ 0) (hlimit : setting.maxDepth = none)
    {ρ ρ' : Env} {e : Expr} (henv : ρ'.Mirrors (.same setting) W ρ ∧ ρ.Within X) {f : Fault}
    (hfault : FaultsAs setting σ (e.plan setting ρ) f) :
    EndsIn (f.leaving e.span) (fun n _ => eval n setting ρ' e) s := by
  have hs₁ : Poised setting X W s.entered σ 0 := ⟨h.zone, h.placed, h.fresh⟩
  have hrel := Kinship.plan_related (K := requestKinship setting X σ 0)
    (h.env_request henv) e
  refine Ends.eval (hlimit ▸ Depth.hasRoom_none _) ((hfault hs₁ hrel).mono ?_)
  rintro _ ⟨s', rfl⟩
  exact ⟨_, rfl⟩

theorem Poised.suspension_endsIn (h : Poised setting X W s σ 0) (hlimit : setting.maxDepth = none)
    {ρ ρ' : Env} {e : Expr} (henv : ρ'.Mirrors (.same setting) W ρ ∧ ρ.Within X) {f : Fault}
    (hfault : FaultsAs setting σ (e.plan setting ρ) f) :
    EndsIn (f.leaving e.span) (fun n _ => Suspension.run (eval n) ⟨setting, ρ', e⟩) s := by
  let s₁ : State := { s with counters := s.counters.countForced }
  have hs₁ : Poised setting X W s₁ σ 0 := ⟨h.zone, h.placed, h.fresh⟩
  exact (hs₁.eval_endsIn hlimit henv hfault).congr fun n m => rfl

/-- Forcing a thunk fails if the plan of its expression does and yields nothing. -/
theorem Poised.force_endsIn (h : Poised setting X W s σ k) (hlimit : setting.maxDepth = none)
    {x x' : Thunk} {S : Setting} {ρ : Env} {e : Expr} {τ : Seed} {f : Fault}
    (hx : x'.Mirrors (.same setting) W x ∧ x.Within X)
    (hhome : x.home (σ ++ [k]) = some (τ, ⟨S, ρ, e⟩))
    (hnever : ∀ v, ¬Yields none τ 0 (e.plan S ρ) v)
    (hfault : FaultsAs setting τ (e.plan S ρ) f) :
    EndsIn (f.leaving e.span) (fun n _ => force (eval n) x') s := by
  obtain ⟨hmirrors, hwithin⟩ := hx
  cases hmirrors with
  | ready => cases hhome
  | rerun hreruns => exact hreruns.elim
  | byName henv =>
      cases hhome
      exact h.request.suspension_endsIn hlimit (h.env_request ⟨henv, hwithin⟩) hfault
  | @byNeed address mark ρ' _ _ hcell henv =>
      cases hhome
      cases hkept : s.store.kept? address with
      | some u =>
          -- A kept result is one that the account yields.
          obtain ⟨v, -, hyields⟩ := h.placed.tracks.kept hcell hkept
          exact absurd hyields (hnever v)
      | none =>
          have hrun := (h.thunk hcell hwithin.1 hkept).suspension_endsIn hlimit
            (h.env_thunk hcell ⟨henv, hwithin.2⟩) hfault
          exact (EndsIn.bind hrun fun v _ _ => Eval.keep address v).congr fun n m =>
            Eval.force_of_pending hkept

/-- A plan that fails by the account fails in the same way when it is run. -/
theorem ends_of_faults (hlimit : setting.maxDepth = none) {α : Type} {p : Plan α} {f : Fault}
    (h : Faults σ p f) : FaultsAs setting σ p f := by
  -- Requests before the one that fails settle, since the account yields what they come to.
  induction h with
  | fail hyields =>
      intro X β post W q s hs hfollow
      refine hs.endsIn_of_ahead hlimit hfollow hyields fun hrel hs₁ => ?_
      cases hrel with
      | fail hcause =>
          rw [hcause trivial]
          exact .of_eq (fun _ _ => rfl) Eval.not_isStarved_fault ⟨_, rfl⟩
  | eval hyields _ ih =>
      intro X β post W q s hs hfollow
      refine hs.endsIn_of_ahead hlimit hfollow hyields fun hrel hs₁ => ?_
      cases hrel with
      | eval henv hnext =>
          have henv' := hs₁.env_request ⟨henv.1, henv.2.mono fun _ hυ => hυ.1⟩
          exact EndsIn.bind (hs₁.request.eval_endsIn hlimit henv' ih) _
  | delay hyields _ ih =>
      intro X β post W q s hs hfollow
      refine hs.endsIn_of_ahead hlimit hfollow hyields fun hrel hs₁ => ?_
      obtain ⟨axis, ρ', next', -, haxis, hsetting, henv, rfl, -⟩ := hrel.delay_inv
      obtain rfl : setting = _ := hsetting.symm
      rw [show axis (requestKinship setting X _ 0).right.policy = .value from haxis.symm]
      have henv' := hs₁.env_request ⟨henv.1, henv.2.mono fun _ hυ => hυ.1⟩
      have hdelay := EndsIn.bind (hs₁.request.eval_endsIn hlimit henv' ih) fun v _ _ =>
        (pure (Thunk.ready v) : Eval Thunk)
      exact EndsIn.bind (hdelay.congr fun n m => rfl) fun x n m => (next' x).run (eval n) m
  | force hyields hhome hnever _ ih =>
      intro X β post W q s hs hfollow
      refine hs.endsIn_of_ahead hlimit hfollow hyields fun hrel hs₁ => ?_
      cases hrel with
      | force hthunk hnext =>
          exact EndsIn.bind (hs₁.force_endsIn hlimit
            ⟨hthunk.1, hthunk.2.mono fun _ hυ => hυ.1⟩ hhome hnever ih) _
  | compare hyields _ ih =>
      intro X β post W q s hs hfollow
      refine hs.endsIn_of_ahead hlimit hfollow hyields fun hrel hs₁ => ?_
      cases hrel with
      | compare htodo hnext =>
          have htodo' := hs₁.todo_request (followKinship_todo_mono (fun _ hυ => hυ.1) htodo)
          have hstep := stepPlan_related hs₁.placed.faithful (hs₁.request.todo_request htodo')
          exact EndsIn.bind (Ends.compare (ih hs₁.request hstep)) _

end

end PolicyEval
