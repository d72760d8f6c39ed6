import PolicyEval.Proofs.Eval.Settling
import PolicyEval.Proofs.Sharing.Placement
import PolicyEval.Proofs.Sharing.Soundness

/-!
# What the account yields, an evaluation computes

An evaluation follows the account, request by request: what the account yields, the evaluation
computes with enough fuel.  It shares exactly what the account shares.  A thunk that is evaluated
once finds a kept result, which mirrors what the account yields for it, or it is evaluated now, for
the first time, under seeds that were not used before.

* `Affords` — the limit leaves the levels that a budget asks for.
* `followKinship` — mirrored data with marks in a zone.
* `settles_of_yields` — a plan that yields something by the account settles on what mirrors it.
-/

namespace PolicyEval

/-- The limit leaves as many levels as the budget has.  Without a budget there must be no limit,
unless a failure at the limit is tolerated. -/
def Affords (tolerant : Bool) (limit b : Option Nat) (d : Nat) : Prop :=
  match b with
  | some k => ∀ n, limit = some n → d + k ≤ n
  | none => tolerant = true ∨ limit = none

/-- The pairing of an evaluation with an account that shares as much. -/
def Pairing.same (setting : Setting) : Pairing := ⟨setting, setting, False⟩

/-- An account that shares as much as the evaluation follows it without a meter. -/
theorem Pairing.same_follows (setting : Setting) : (Pairing.same setting).Follows false :=
  ⟨fun _ _ => .inl rfl, nofun⟩

/-- Mirrored data with marks in a zone, the account on the left. -/
def followKinship (setting : Setting) (X : Seed → Prop) : Kinship where
  World := Matching
  le := Matching.le
  left := setting
  right := setting
  strict := True
  value W v' v := v.Mirrors (.same setting) W v' ∧ v'.Within X
  thunk W x' x := x.Mirrors (.same setting) W x' ∧ x'.Within X
  env W ρ' ρ := ρ.Mirrors (.same setting) W ρ' ∧ ρ'.Within X
  todo W := List.Forall₂ fun c' c =>
    c'.SameKind (fun v' v => v.Mirrors (.same setting) W v' ∧ v'.Within X)
      (fun ρ' ρ => ρ.Mirrors (.same setting) W ρ' ∧ ρ'.Within X) c
  refl := .refl
  trans := .trans
  value_mono hW h := ⟨h.1.mono hW, h.2⟩
  thunk_mono hW h := ⟨h.1.mono hW, h.2⟩
  env_mono hW h := ⟨h.1.mono hW, h.2⟩
  todo_mono hW h :=
    h.imp fun _ _ hc => hc.mono (fun h => ⟨h.1.mono hW, h.2⟩) fun h => ⟨h.1.mono hW, h.2⟩
  atom h := ⟨.atom h, h.within⟩
  empty := ⟨.empty, trivial⟩
  value_layer h := by
    obtain ⟨hmirrors, hwithin⟩ := h
    cases hmirrors with
    | atom h => exact .atom h
    | closure _ henv => exact .closure ⟨henv, hwithin.2⟩
    | cons _ hhead htail => exact .cons ⟨hhead, hwithin.2.1⟩ ⟨htail, hwithin.2.2⟩
  env_layer h := by
    obtain ⟨hmirrors, hwithin⟩ := h
    cases hmirrors with
    | empty => exact .empty
    | frame _ hbound hrest => exact .frame ⟨hbound, hwithin.2.1⟩ ⟨hrest, hwithin.2.2⟩
  ready h := by
    obtain ⟨hmirrors, hwithin⟩ := h
    cases hmirrors with
    | ready hv => exact ⟨_, rfl, hv, hwithin⟩
  ready_strict _ {_ _ _} h := by
    obtain ⟨hmirrors, -⟩ := h
    cases hmirrors with
    | ready => exact ⟨_, rfl⟩
  todo_nil := .nil
  todo_cons hc h := .cons hc h

/-- What following the account leads to: a later matching, which agrees with the last state at the
same depth; kept results stay. -/
structure Reaches (P : Pairing) (X : Seed → Prop) (W : Matching) (s : State) (W' : Matching)
    (s' : State) : Prop where
  grows : W.Grows X W'
  placed : W'.Placed P X s'.store
  kept : ∀ {address v}, s.store.kept? address = some v → s'.store.kept? address = some v
  depth : s'.depth.current = s.depth.current

section

variable {setting : Setting} {X : Seed → Prop} {W W' W'' : Matching} {s s' s'' : State}
  {σ τ : Seed} {k : Nat} {tolerant : Bool}

theorem Reaches.refl {P : Pairing} (h : W.Placed P X s.store) : Reaches P X W s W s :=
  ⟨.refl, h, id, rfl⟩

theorem Reaches.trans {P : Pairing} (h : Reaches P X W s W' s') (h' : Reaches P X W' s' W'' s'') :
    Reaches P X W s W'' s'' :=
  ⟨h.grows.trans h'.grows, h'.placed, fun hkept => h'.kept (h.kept hkept),
    h'.depth.trans h.depth⟩

/-- A state in which a plan can be followed from its next request on. -/
structure Poised (setting : Setting) (X : Seed → Prop) (W : Matching) (s : State) (σ : Seed)
    (k : Nat) : Prop where
  zone : Seed.Zone X σ k
  placed : W.Placed (.same setting) X s.store
  fresh : W.Fresh σ k

theorem same_reruns : ¬(Pairing.same setting).reruns := id

namespace Poised

/-- The next request is met in its own part of the zone. -/
theorem request (h : Poised setting X W s σ k) :
    Poised setting (Seed.inner X σ k (σ ++ [k])) W s (σ ++ [k]) 0 :=
  ⟨h.zone.request_narrow, h.placed.mono fun _ hυ => hυ.1, h.fresh.request⟩

theorem env_request (h : Poised setting X W s σ k) {ρ ρ' : Env}
    (henv : ρ'.Mirrors (.same setting) W ρ ∧ ρ.Within X) :
    ρ'.Mirrors (.same setting) W ρ ∧ ρ.Within (Seed.inner X σ k (σ ++ [k])) :=
  ⟨henv.1, henv.1.within same_reruns
    (fun _ huses hυ => Matching.inner_of_uses h.zone h.fresh huses hυ) henv.2⟩

/-- After the next request was met in its part of the zone, the plan can go on. -/
theorem resume (h : Poised setting X W s σ k)
    (hreaches : Reaches (.same setting) (Seed.inner X σ k (σ ++ [k])) W s W' s') :
    Reaches (.same setting) X W s W' s' ∧ Poised setting X W' s' σ (k + 1) := by
  have hplaced : W'.Placed (.same setting) X s'.store :=
    hreaches.placed.widen h.fresh hreaches.grows fun hcell hmark hpre =>
      absurd hpre (Matching.Placed.not_above h.zone h.fresh hcell hmark)
  exact ⟨⟨hreaches.grows.mono fun _ hυ => hυ.1, hplaced, hreaches.kept, hreaches.depth⟩,
    h.zone.next, hplaced, h.fresh.after hreaches.grows⟩

end Poised

/-- Whatever plan is related to the given one, in whatever zone, settles on a result that is related
to the given one. -/
def SettlesAs (setting : Setting) (tolerant : Bool) {α : Type} (b : Option Nat) (σ : Seed)
    (k : Nat) (p : Plan α) (a : α) : Prop :=
  ∀ {X : Seed → Prop} {β : Type} {post : (followKinship setting X).World → α → β → Prop}
    {W : (followKinship setting X).World} {q : Plan β} {s : State},
    Plan.Related (followKinship setting X) post W p q → Poised setting X W s σ k →
      Affords tolerant setting.maxDepth b s.depth.current →
        Settles tolerant (fun n m => q.run (eval n) m) s fun a' s' =>
          ∃ W', post W' a a' ∧ Reaches (.same setting) X W s W' s'

theorem Affords.step {limit b b' : Option Nat} {d : Depth}
    (h : Affords tolerant limit b d.current) (hlevel : Below b b') :
    d.HasRoom limit ∧ Affords tolerant limit b' (d.current + 1) ∨
      tolerant = true ∧ ¬d.HasRoom limit := by
  match b, b' with
  | some n, some m =>
      obtain rfl : n = m + 1 := hlevel
      refine .inl ⟨fun l hl => ?_, fun l hl => ?_⟩
      · have hroom := h l hl
        omega
      · have hroom := h l hl
        omega
  | none, none =>
      by_cases hroom : d.HasRoom limit
      · exact .inl ⟨hroom, h⟩
      · rcases h with htolerant | hlimit
        · exact .inr ⟨htolerant, hroom⟩
        · exact absurd (fun n hn => absurd (hlimit.symm.trans hn) (by simp)) hroom

/-- Evaluating an expression settles if its plan does, one level deeper. -/
theorem eval_settles {b b' : Option Nat} {ρ ρ' : Env} {e : Expr} {v : Value}
    (hlevel : Below b b') (hv : SettlesAs setting tolerant b' σ 0 (e.plan setting ρ) v)
    (henv : ρ'.Mirrors (.same setting) W ρ ∧ ρ.Within X) (hs : Poised setting X W s σ 0)
    (hafford : Affords tolerant setting.maxDepth b s.depth.current) :
    Settles tolerant (fun n _ => eval n setting ρ' e) s fun v' s' =>
      ∃ W', (v'.Mirrors (.same setting) W' v ∧ v.Within X) ∧
        Reaches (.same setting) X W s W' s' := by
  rcases hafford.step hlevel with ⟨hroom, hafford'⟩ | ⟨rfl, hroom⟩
  · have hrel : Plan.Related (followKinship setting X) (followKinship setting X).value W
        (e.plan setting ρ) (e.plan setting ρ') :=
      Kinship.plan_related (K := followKinship setting X) henv e
    have hs₁ : Poised setting X W s.entered σ 0 := ⟨hs.zone, hs.placed, hs.fresh⟩
    refine Settles.eval hroom ((hv hrel hs₁ hafford').mono fun v' s' => ?_)
    rintro ⟨W', hvalue, hreaches⟩
    refine ⟨W', hvalue, hreaches.grows, hreaches.placed, hreaches.kept, ?_⟩
    have hdepth : s'.depth.current = s.depth.current + 1 := hreaches.depth
    simp only [Depth.leave, hdepth, Nat.add_sub_cancel]
  · exact Settles.eval_exceeds hroom

/-- Running a suspended expression settles as evaluating it does. -/
theorem suspension_settles {b b' : Option Nat} {ρ ρ' : Env} {e : Expr} {v : Value}
    (hlevel : Below b b') (hv : SettlesAs setting tolerant b' σ 0 (e.plan setting ρ) v)
    (henv : ρ'.Mirrors (.same setting) W ρ ∧ ρ.Within X) (hs : Poised setting X W s σ 0)
    (hafford : Affords tolerant setting.maxDepth b s.depth.current) :
    Settles tolerant (fun n _ => Suspension.run (eval n) ⟨setting, ρ', e⟩) s fun v' s' =>
      ∃ W', (v'.Mirrors (.same setting) W' v ∧ v.Within X) ∧
        Reaches (.same setting) X W s W' s' := by
  let s₁ : State := { s with counters := s.counters.countForced }
  have hsettles : Settles tolerant (fun n _ => Suspension.run (eval n) ⟨setting, ρ', e⟩) s _ :=
    eval_settles (s := s₁) hlevel hv henv ⟨hs.zone, hs.placed, hs.fresh⟩ hafford
  refine hsettles.mono fun v' s' => ?_
  rintro ⟨W', hvalue, hreaches⟩
  exact ⟨W', hvalue, hreaches.grows, hreaches.placed, hreaches.kept, hreaches.depth⟩

namespace Poised

/-- A thunk that was not evaluated yet is evaluated in its own part of the zone. -/
theorem thunk (h : Poised setting X W s σ k) {address mark : Nat} {q : Suspension}
    (hcell : W.cell address = some (mark, q)) (hmark : X (Seed.ofCode mark))
    (hpending : s.store.kept? address = none) :
    Poised setting (Seed.inner X σ k (Seed.ofCode mark)) W s (Seed.ofCode mark) 0 := by
  have hfresh : ¬Seed.Ahead σ k (Seed.ofCode mark) :=
    fun hahead => h.fresh _ hahead (.cell hcell rfl)
  refine ⟨h.zone.thunk_narrow hmark hfresh, h.placed.mono fun _ hυ => hυ.1, ?_⟩
  intro υ hahead huses
  rcases h.placed.ready hcell hmark with ⟨v, hkept⟩ | hfree
  · rw [hpending] at hkept
    cases hkept
  · refine hahead.not_below ?_
    rw [hfree υ huses hahead.prefix_self]

theorem env_thunk (h : Poised setting X W s σ k) {address mark : Nat} {S : Setting} {ρ ρ' : Env}
    {e : Expr} (hcell : W.cell address = some (mark, ⟨S, ρ, e⟩))
    (henv : ρ'.Mirrors (.same setting) W ρ ∧ ρ.Within X) :
    ρ'.Mirrors (.same setting) W ρ ∧ ρ.Within (Seed.inner X σ k (Seed.ofCode mark)) := by
  have hgrounded := h.placed.faithful.grounded hcell
  have hused : ρ.Within fun υ => W.Uses υ ∧ X υ :=
    henv.1.within same_reruns (fun _ huses hυ => ⟨huses, hυ⟩) henv.2
  refine ⟨henv.1, (hused.inter hgrounded).mono fun υ hυ => ?_⟩
  exact ⟨hυ.1.2, hυ.2, fun hahead => h.fresh υ hahead.of_succ hυ.1.1⟩

/-- After a thunk was evaluated in its part of the zone and its result is kept, the plan can go
on. -/
theorem resume_thunk (h : Poised setting X W s σ k) {address mark : Nat} {q : Suspension}
    (hcell : W.cell address = some (mark, q))
    (hgrows : W.Grows (Seed.inner X σ k (Seed.ofCode mark)) W')
    (hplaced : W'.Placed (.same setting) (Seed.inner X σ k (Seed.ofCode mark)) s'.store)
    (hkept : ∀ {a v}, s.store.kept? a = some v → s'.store.kept? a = some v)
    (hdone : ∃ v, s'.store.kept? address = some v)
    (hdepth : s'.depth.current = s.depth.current) :
    Reaches (.same setting) X W s W' s' ∧ Poised setting X W' s' σ (k + 1) := by
  have hwide : W'.Placed (.same setting) X s'.store := by
    refine hplaced.widen h.fresh hgrows fun {address' mark' q'} hcell' hmark' hpre => ?_
    rcases h.placed.ready hcell' hmark' with ⟨v, hv⟩ | hfree
    · exact ⟨v, hkept hv⟩
    · -- A thunk that was not evaluated and has a used seed below its mark is the one in question.
      have hsame := hfree _ (.cell hcell rfl) hpre
      rw [h.placed.faithful.cell_inj hcell' hcell hsame.symm]
      exact hdone
  exact ⟨⟨hgrows.mono fun _ hυ => hυ.1, hwide, hkept, hdepth⟩, h.zone.next, hwide,
    h.fresh.after hgrows⟩

end Poised

/-- What a request leads to, and what is needed to go on with the next one. -/
def Continues (setting : Setting) (X : Seed → Prop) (W : Matching) (s : State) (σ : Seed) (k : Nat)
    (W' : Matching) (s' : State) : Prop :=
  Reaches (.same setting) X W s W' s' ∧ Poised setting X W' s' σ (k + 1)

/-- A request that changes nothing. -/
theorem Poised.stay (h : Poised setting X W s σ k) : Continues setting X W s σ k W s :=
  ⟨.refl h.placed, h.zone.next, h.placed, h.fresh.next⟩

/-- The expression of the next request settles if its plan does. -/
theorem Poised.eval_settles (h : Poised setting X W s σ k) {b b' : Option Nat} {ρ ρ' : Env}
    {e : Expr} {v : Value} (hlevel : Below b b')
    (hv : SettlesAs setting tolerant b' (σ ++ [k]) 0 (e.plan setting ρ) v)
    (henv : ρ'.Mirrors (.same setting) W ρ ∧ ρ.Within X)
    (hafford : Affords tolerant setting.maxDepth b s.depth.current) :
    Settles tolerant (fun n _ => eval n setting ρ' e) s fun v' s' =>
      ∃ W', (v'.Mirrors (.same setting) W' v ∧ v.Within X) ∧
        Continues setting X W s σ k W' s' := by
  refine (PolicyEval.eval_settles hlevel hv (h.env_request henv) h.request hafford).mono ?_
  rintro v' s' ⟨W', ⟨hmirrors, hwithin⟩, hreaches⟩
  exact ⟨W', ⟨hmirrors, hwithin.mono fun _ hυ => hυ.1⟩, h.resume hreaches⟩

/-- A thunk that was evaluated before has a kept result, which is the right one. -/
theorem Poised.kept_mirrors (h : Poised setting X W s σ k) {b : Option Nat}
    {address mark : Nat} {ρ : Env} {e : Expr} {u v : Value}
    (hcell : W.cell address = some (mark, ⟨setting, ρ, e⟩))
    (hyields : Yields b (Seed.ofCode mark) 0 (e.plan setting ρ) v)
    (hkept : s.store.kept? address = some u) : u.Mirrors (.same setting) W v := by
  obtain ⟨v', hmirrors, hyields'⟩ := h.placed.tracks.kept hcell hkept
  rwa [hyields.unique hyields']

/-- A thunk is evaluated under its own seed; if that is in the zone, its result is as well. -/
theorem Poised.result_within (h : Poised setting X W s σ k) {b : Option Nat} {mark : Nat} {ρ : Env}
    {e : Expr} {v : Value} (hyields : Yields b (Seed.ofCode mark) 0 (e.plan setting ρ) v)
    (hmark : X (Seed.ofCode mark)) (henv : ρ.Within X) : v.Within X := by
  have hrel := Kinship.plan_related (K := withinKinship setting X) (W := ()) ⟨rfl, henv⟩ e
  exact (hyields.within h.zone.closed
    (fun υ hυ => h.zone.closed _ υ hmark hυ.prefix_self) hrel).2

/-- The result of a thunk that was evaluated in its part of the zone is kept, and the plan can go
on. -/
theorem Poised.keep_result (h : Poised setting X W s σ k) {b : Option Nat} {address mark : Nat}
    {ρ : Env} {e : Expr} {u v : Value} {s₁ : State}
    (hcell : W.cell address = some (mark, ⟨setting, ρ, e⟩))
    (hyields : Yields b (Seed.ofCode mark) 0 (e.plan setting ρ) v)
    (hu : u.Mirrors (.same setting) W' v)
    (hreaches : Reaches (.same setting) (Seed.inner X σ k (Seed.ofCode mark)) W s W' s₁) :
    ∃ u' s₂, Eval.keep address u s₁ = .ok u' s₂ ∧ u'.Mirrors (.same setting) W' v ∧
      Continues setting X W s σ k W' s₂ ∧ (∃ w, s₂.store.kept? address = some w) ∧
        ∀ {n w}, s₁.store.kept? n = some w → s₂.store.kept? n = some w := by
  have hcell' := hreaches.grows.le.cell hcell
  have hsize := hreaches.placed.tracks.cell_lt hcell'
  cases hkept₁ : s₁.store.kept? address with
  | some u' =>
      -- A result that came first stays; it is the right one, too.
      obtain ⟨v', hmirrors, hyields'⟩ := hreaches.placed.tracks.kept hcell' hkept₁
      obtain rfl := hyields.unique hyields'
      refine ⟨u', s₁, by rw [Eval.keep_apply, hkept₁], hmirrors, ?_, ⟨u', hkept₁⟩, id⟩
      exact h.resume_thunk hcell hreaches.grows hreaches.placed hreaches.kept
        ⟨u', hkept₁⟩ hreaches.depth
  | none =>
      have hplaced := hreaches.placed.keep hcell' hu hyields.unlimited
      have hdone : (s₁.store.keep address u).kept? address = some u := by
        rw [Store.kept?_keep hsize, if_pos rfl]
      have hmore : ∀ {n w}, s₁.store.kept? n = some w →
          (s₁.store.keep address u).kept? n = some w := by
        intro n w hn
        have hne : n ≠ address := by
          rintro rfl
          rw [hkept₁] at hn
          cases hn
        rwa [Store.kept?_keep hsize, if_neg hne]
      refine ⟨u, { s₁ with store := s₁.store.keep address u }, by rw [Eval.keep_apply, hkept₁], hu,
        ?_, ⟨u, hdone⟩, hmore⟩
      exact h.resume_thunk hcell hreaches.grows hplaced (fun hn => hmore (hreaches.kept hn))
        ⟨u, hdone⟩ hreaches.depth

/-- Forcing the thunk of the next request settles if the plan of its expression does. -/
theorem Poised.force_settles (h : Poised setting X W s σ k) {b b' : Option Nat} {x x' : Thunk}
    {S : Setting} {ρ : Env} {e : Expr} {v : Value}
    (hhome : x.home (σ ++ [k]) = some (τ, ⟨S, ρ, e⟩)) (hlevel : Below b b')
    (hyields : Yields b' τ 0 (e.plan S ρ) v)
    (hv : SettlesAs setting tolerant b' τ 0 (e.plan S ρ) v)
    (hx : x'.Mirrors (.same setting) W x ∧ x.Within X)
    (hafford : Affords tolerant setting.maxDepth b s.depth.current) :
    Settles tolerant (fun n _ => force (eval n) x') s fun v' s' =>
      ∃ W', (v'.Mirrors (.same setting) W' v ∧ v.Within X) ∧
        Continues setting X W s σ k W' s' := by
  obtain ⟨hmirrors, hwithin⟩ := hx
  cases hmirrors with
  | ready => cases hhome
  | rerun hreruns => exact hreruns.elim
  | byName henv =>
      cases hhome
      refine (suspension_settles hlevel hv (h.env_request ⟨henv, hwithin⟩) h.request hafford).mono
        ?_
      rintro v' s' ⟨W', ⟨hmirrors, hwithin'⟩, hreaches⟩
      exact ⟨W', ⟨hmirrors, hwithin'.mono fun _ hυ => hυ.1⟩, h.resume hreaches⟩
  | @byNeed address mark ρ' _ _ hcell henv =>
      cases hhome
      have hvX := h.result_within hyields hwithin.1 hwithin.2
      cases hkept : s.store.kept? address with
      | some u =>
          refine .of_ok (fun n m => Eval.force_of_kept hkept)
            ⟨W, ⟨h.kept_mirrors hcell hyields hkept, hvX⟩, h.stay⟩
      | none =>
          have hrun := suspension_settles hlevel hv (h.env_thunk hcell ⟨henv, hwithin.2⟩)
            (h.thunk hcell hwithin.1 hkept) hafford
          refine Settles.congr (Settles.bind hrun ?_) fun n m => Eval.force_of_pending hkept
          rintro u s₁ ⟨W', ⟨hu, -⟩, hreaches⟩
          obtain ⟨u', s₂, hok, hmirrors, hcontinues, -⟩ :=
            h.keep_result hcell hyields hu hreaches
          exact .of_ok (fun n m => hok) ⟨W', ⟨hmirrors, hvX⟩, hcontinues⟩

/-! ## New objects -/

namespace Poised

variable (h : Poised setting X W s σ k)

include h

theorem clear_request {υ : Seed} (hυ : σ ++ [k] <+: υ) : W.Clear X υ := by
  intro address mark q hcell hmark hpre
  have hahead : Seed.Ahead σ k (Seed.ofCode mark) :=
    h.zone.ahead_of_below hmark hpre (.of_below hυ)
  exact h.fresh _ hahead (.cell hcell rfl)

/-- The next request makes a new object. -/
theorem object (v : Value) (hmark : v.mark = some (σ ++ [k])) :
    Continues setting X W s σ k (W.withObject s.store.nextTag v)
      { s with store := s.store.freshTag.2 } := by
  have hplaced := h.placed.withObject hmark (h.fresh _ (Seed.ahead_self σ k))
    (h.clear_request List.prefix_rfl)
  have hgrows := Matching.grows_withObject (X := X) h.placed.tracks.object_fresh hmark
    h.zone.request
  refine ⟨⟨hgrows, hplaced, id, rfl⟩, h.zone.next, hplaced, h.fresh.of_uses fun υ hυ => ?_⟩
  refine (Matching.uses_withObject hυ).imp id fun hnew => ?_
  rw [hmark] at hnew
  cases hnew
  exact List.prefix_rfl

/-- The next request makes a list cell. -/
theorem cons {x x' y y' : Thunk} (hhead : x'.Mirrors (.same setting) W x ∧ x.Within X)
    (htail : y'.Mirrors (.same setting) W y ∧ y.Within X) :
    let v : Value := .cons (Seed.code (σ ++ [k])) x y
    let W' := W.withObject s.store.nextTag v
    ((Value.cons s.store.nextTag x' y').Mirrors (.same setting) W' v ∧ v.Within X) ∧
      Continues setting X W s σ k W' { s with store := s.store.freshTag.2 } := by
  intro v W'
  obtain ⟨-, hmirrors⟩ := h.placed.tracks.cons_mirrors (Seed.code (σ ++ [k])) hhead.1 htail.1
  refine ⟨⟨hmirrors, ?_, hhead.2, htail.2⟩, h.object v ?_⟩
  · exact (Seed.ofCode_code _).symm ▸ h.zone.request
  · simp only [v, Value.mark, Seed.ofCode_code]

/-- The next request makes a closure. -/
theorem closure (lambda : Lambda) {ρ ρ' : Env}
    (henv : ρ'.Mirrors (.same setting) W ρ ∧ ρ.Within X) :
    let v : Value := .closure (Seed.code (σ ++ [k])) lambda ρ
    let W' := W.withObject s.store.nextTag v
    ((Value.closure s.store.nextTag lambda ρ').Mirrors (.same setting) W' v ∧ v.Within X) ∧
      Continues setting X W s σ k W' { s with store := s.store.freshTag.2 } := by
  intro v W'
  obtain ⟨-, hmirrors⟩ := h.placed.tracks.closure_mirrors (Seed.code (σ ++ [k])) lambda henv.1
  refine ⟨⟨hmirrors, ?_, henv.2⟩, h.object v ?_⟩
  · exact (Seed.ofCode_code _).symm ▸ h.zone.request
  · simp only [v, Value.mark, Seed.ofCode_code]

/-- The next request makes a thunk that is evaluated once. -/
theorem byNeed {ρ ρ' : Env} (henv : ρ'.Mirrors (.same setting) W ρ ∧ ρ.Within X) (e : Expr) :
    let mark := Seed.code (σ ++ [k])
    let W' := W.withCell s.store.cells.size (mark, ⟨setting, ρ, e⟩)
    ((Thunk.byNeed s.store.cells.size ⟨setting, ρ', e⟩).Mirrors (.same setting) W'
        (.byNeed mark ⟨setting, ρ, e⟩) ∧ (Thunk.byNeed mark ⟨setting, ρ, e⟩).Within X) ∧
      Continues setting X W s σ k W' { s with store := s.store.allocate.2 } := by
  intro mark W'
  obtain ⟨-, hmirrors⟩ := h.placed.tracks.byNeed_mirrors mark e henv.1
  refine ⟨⟨hmirrors, (Seed.ofCode_code _).symm ▸ h.zone.request, henv.2⟩, ?_⟩
  have hplaced := h.placed.withCell (fun υ hυ => h.fresh υ (.of_below hυ))
    (h.clear_request List.prefix_rfl) ((h.env_request henv).2.mono fun υ hυ => hυ.2.1) setting e
  have hgrows := Matching.grows_withCell h.placed.tracks.cell_fresh h.zone.request
    ⟨setting, ρ, e⟩
  refine ⟨⟨hgrows, hplaced, fun hkept => (Store.kept?_allocate _ _).trans hkept, rfl⟩,
    h.zone.next, hplaced, h.fresh.of_uses fun υ hυ => ?_⟩
  refine (Matching.uses_withCell hυ).imp id fun hnew => ?_
  rw [← hnew, Seed.ofCode_code]

/-- The next request makes new frames. -/
theorem frames {ρ ρ' : Env} (henv : ρ'.Mirrors (.same setting) W ρ ∧ ρ.Within X)
    {bs bs' : List (Name × Thunk)}
    (hbs : List.Forall₂ (fun b b' => b.1 = b'.1 ∧ b'.2.Mirrors (.same setting) W b.2 ∧
      b.2.Within X) bs bs') :
    let W' := W.withFrames (σ ++ [k]) s.store.nextTag ρ bs
    ((s.store.extend ρ' bs').1.Mirrors (.same setting) W' (ρ.framed (σ ++ [k]) bs) ∧
        (ρ.framed (σ ++ [k]) bs).Within X) ∧
      Continues setting X W s σ k W' { s with store := (s.store.extend ρ' bs').2 } := by
  intro W'
  have hflip : List.Forall₂ (fun b b' => b.1 = b'.1 ∧ b.2.Mirrors (.same setting) W b'.2) bs' bs :=
    hbs.flip.imp fun b b' hb => ⟨hb.1.symm, hb.2.1⟩
  obtain ⟨-, hle, hmirrors⟩ := h.placed.tracks.withFrames (σ ++ [k]) henv.1 hflip
  have hbelow : ∀ i, σ ++ [k] <+: σ ++ [k] ++ [i] := fun i => List.prefix_append _ _
  have hX : ∀ i, X (σ ++ [k] ++ [i]) := fun i => h.zone.ahead _ (.of_below (hbelow i))
  have hplaced := h.placed.withFrames (fun i => h.fresh _ (.of_below (hbelow i)))
    (fun i => h.clear_request (hbelow i)) ρ' ρ hflip.length_eq
  have hgrows := Matching.grows_withFrames hle hX
  have hwithin := forall₂_within (fun _ _ hb => hb.2.2) hbs
  refine ⟨⟨hmirrors, henv.2.framed hX hwithin⟩, ⟨hgrows, hplaced, fun hkept => ?_, rfl⟩,
    h.zone.next, hplaced, h.fresh.of_uses fun υ hυ => ?_⟩
  · rw [Store.kept?, Store.extend_cells]
    exact hkept
  · refine (Matching.uses_withFrames hυ).imp id ?_
    rintro ⟨i, -, rfl⟩
    exact hbelow i

end Poised

/-! ## Plans -/

/-- Both sides agree on what is one and the same, values without parts aside. -/
theorem coincides_iff_identical (hfaithful : W.Faithful) {c c' : Comparison}
    (hc : (followKinship setting X).Comparable W c c') :
    c.coincides = c'.identical ∨
      ∃ a : Value, a.IsAtom ∧ c = .values a a ∧ c' = .values a a := by
  cases hc with
  | tails => exact .inl rfl
  | @values a b a' b' ha hb =>
      by_cases hatom : a.IsAtom ∧ a = b
      · obtain ⟨hatom, rfl⟩ := hatom
        refine .inr ⟨a, hatom, rfl, ?_⟩
        rw [ha.1.eq_of_isAtom hatom, hb.1.eq_of_isAtom hatom]
      · refine .inl (Bool.eq_iff_iff.2 ?_)
        rw [Comparison.coincides_values]
        refine ⟨?_, ha.1.eq_of_identical hb.1⟩
        rintro rfl
        exact ha.1.identical_of_eq hfaithful hb.1 fun h => hatom ⟨h, rfl⟩
  | @envs a b a' b' ha hb =>
      refine .inl (Bool.eq_iff_iff.2 ?_)
      rw [Comparison.coincides_envs]
      refine ⟨?_, ha.1.eq_of_same hb.1⟩
      rintro rfl
      exact ha.1.same_of_eq hfaithful hb.1

theorem stepPlan_related (hfaithful : W.Faithful) {todo todo' : List Comparison}
    (htodo : (followKinship setting X).todo W todo todo') :
    Plan.Related (followKinship setting X) (fun _ => Eq) W (stepPlan Comparison.coincides todo)
      (stepPlan Comparison.identical todo') := by
  cases htodo with
  | nil => exact .done rfl
  | cons hc hrest =>
      exact Kinship.step_related (K := followKinship setting X) hrest hc
        (coincides_iff_identical hfaithful hc)

theorem Poised.todo_request (h : Poised setting X W s σ k) {todo todo' : List Comparison}
    (htodo : (followKinship setting X).todo W todo todo') :
    (followKinship setting (Seed.inner X σ k (σ ++ [k]))).todo W todo todo' := by
  have huses : ∀ υ, W.Uses υ → X υ → Seed.inner X σ k (σ ++ [k]) υ :=
    fun _ huses hυ => Matching.inner_of_uses h.zone h.fresh huses hυ
  refine List.Forall₂.imp (fun c c' hc => ?_) htodo
  exact hc.mono (fun h => ⟨h.1, h.1.within same_reruns huses h.2⟩)
    fun h => ⟨h.1, h.1.within same_reruns huses h.2⟩

/-- After a request was met, the rest of the plan is followed from there. -/
theorem SettlesAs.continue {α β : Type} {b : Option Nat} {p : Plan α} {q : Plan β} {a : α}
    {post : (followKinship setting X).World → α → β → Prop} {s₁ : State} {W₁ : Matching}
    (h : SettlesAs setting tolerant b σ (k + 1) p a) (hs : Continues setting X W s σ k W₁ s₁)
    (hrel : Plan.Related (followKinship setting X) post W₁ p q)
    (hafford : Affords tolerant setting.maxDepth b s.depth.current) :
    Settles tolerant (fun n m => q.run (eval n) m) s₁ fun a' s' =>
      ∃ W', post W' a a' ∧ Reaches (.same setting) X W s W' s' := by
  refine (h hrel hs.2 (hs.1.depth ▸ hafford)).mono ?_
  rintro a' s' ⟨W', hpost, hreaches⟩
  exact ⟨W', hpost, hs.1.trans hreaches⟩

/-- What the account yields for a plan, a related plan settles on. -/
theorem settles_of_yields {α : Type} {b : Option Nat} {p : Plan α} {a : α}
    (h : Yields b σ k p a) : SettlesAs setting tolerant b σ k p a := by
  -- The induction is on how the account comes to its result.  In each case the related plan makes
  -- the same request, which is met in a part of the zone of its own.
  induction h with
  | done =>
      intro X β post W q s hrel hs hafford
      cases hrel with
      | done hpost => exact .of_ok (fun n m => rfl) ⟨W, hpost, .refl hs.placed⟩
  | @count _ _ _ _ step _ _ _ ih =>
      intro X β post W q s hrel hs hafford
      cases hrel with
      | @count _ _ _ q hrel =>
          let s₁ : State := { s with counters := step s.counters }
          have hsettles : Settles tolerant (fun n m => (Plan.count step q).run (eval n) m) s _ :=
            ih (s := s₁) hrel ⟨hs.zone, hs.placed, hs.fresh⟩ hafford
          refine hsettles.mono ?_
          rintro a' s' ⟨W', hpost, hreaches⟩
          exact ⟨W', hpost, hreaches.grows, hreaches.placed, hreaches.kept, hreaches.depth⟩
  | eval hlevel _ _ ihv ih =>
      intro X β post W q s hrel hs hafford
      cases hrel with
      | eval henv hnext =>
          refine (hs.eval_settles hlevel ihv henv hafford).bind ?_
          rintro v' s₁ ⟨W₁, hv, hs₁⟩
          exact ih.continue hs₁ (hnext W₁ hs₁.1.grows.le _ _ hv) hafford
  | ready _ ih =>
      intro X β post W q s hrel hs hafford
      cases hrel with
      | force hthunk hnext =>
          obtain ⟨hmirrors, hwithin⟩ := hthunk
          cases hmirrors with
          | ready hv =>
              exact (ih.continue hs.stay (hnext W (.refl W) _ _ ⟨hv, hwithin⟩) hafford).congr
                fun n m => rfl
  | force hhome hlevel hyields _ ihv ih =>
      intro X β post W q s hrel hs hafford
      cases hrel with
      | force hthunk hnext =>
          refine (hs.force_settles hhome hlevel hyields ihv hthunk hafford).bind ?_
          rintro v' s₁ ⟨W₁, hv, hs₁⟩
          exact ih.continue hs₁ (hnext W₁ hs₁.1.grows.le _ _ hv) hafford
  | @delayValue _ _ _ _ _ S _ _ _ _ _ hlevel _ _ ihv ih =>
      intro X β post W q s hrel hs hafford
      obtain ⟨axis, ρ', next', -, haxis, hsetting, henv, rfl, hnext⟩ := hrel.delay_inv
      obtain rfl : setting = S := hsetting.symm
      rw [show axis (followKinship setting X).right.policy = .value from haxis.symm]
      refine Settles.congr ((hs.eval_settles hlevel ihv henv hafford).bind
        (?_ : ∀ v' s₁, _ → Settles tolerant (fun n m => (next' (.ready v')).run (eval n) m) s₁ _))
        fun n m => ?_
      · rintro v' s₁ ⟨W₁, hv, hs₁⟩
        exact ih.continue hs₁ (hnext W₁ hs₁.1.grows.le _ _ ⟨.ready hv.1, hv.2⟩) hafford
      · simp only [Plan.run, delay, bind_assoc, pure_bind]
        rfl
  | @delayName _ _ _ _ S _ _ _ _ _ ih =>
      intro X β post W q s hrel hs hafford
      obtain ⟨axis, ρ', next', -, haxis, hsetting, henv, rfl, hnext⟩ := hrel.delay_inv
      obtain rfl : setting = S := hsetting.symm
      rw [show axis (followKinship setting X).right.policy = .name from haxis.symm]
      exact (ih.continue hs.stay (hnext W (.refl W) _ _ ⟨.byName henv.1, henv.2⟩) hafford).congr
        fun n m => rfl
  | @delayNeed _ _ _ _ S _ e _ _ _ ih =>
      intro X β post W q s hrel hs hafford
      obtain ⟨axis, ρ', next', -, haxis, hsetting, henv, rfl, hnext⟩ := hrel.delay_inv
      obtain rfl : setting = S := hsetting.symm
      rw [show axis (followKinship setting X).right.policy = .need from haxis.symm]
      obtain ⟨hthunk, hs₁⟩ := hs.byNeed henv e
      exact (ih.continue hs₁ (hnext _ hs₁.1.grows.le _ _ hthunk) hafford).congr fun n m => rfl
  | cell _ ih =>
      intro X β post W q s hrel hs hafford
      cases hrel with
      | cell hhead htail _ hnext =>
          obtain ⟨hv, hs₁⟩ := hs.cons hhead htail
          exact (ih.continue hs₁ (hnext _ hs₁.1.grows.le _ _ hv) hafford).congr fun n m => rfl
  | @closure _ _ _ _ lambda _ _ _ _ ih =>
      intro X β post W q s hrel hs hafford
      cases hrel with
      | closure henv hnext =>
          obtain ⟨hv, hs₁⟩ := hs.closure lambda henv
          exact (ih.continue hs₁ (hnext _ hs₁.1.grows.le _ _ hv) hafford).congr fun n m => rfl
  | extend _ ih =>
      intro X β post W q s hrel hs hafford
      cases hrel with
      | extend henv hbs hnext =>
          obtain ⟨hinner, hs₁⟩ := hs.frames henv hbs
          exact (ih.continue hs₁ (hnext _ hs₁.1.grows.le _ _ hinner) hafford).congr
            fun n m => rfl
  | @compare _ _ _ _ todo _ _ _ _ _ iht ih =>
      intro X β post W q s hrel hs hafford
      cases hrel with
      | @compare _ _ todo' _ _ htodo hnext =>
          have hstep : Plan.Related (followKinship setting (Seed.inner X _ _ _)) (fun _ => Eq) W
              (stepPlan Comparison.coincides todo) (stepPlan Comparison.identical todo') :=
            stepPlan_related hs.placed.faithful (hs.todo_request htodo)
          refine Settles.bind (iht hstep hs.request hafford).compare ?_
          rintro t s₁ ⟨W₁, rfl, hreaches⟩
          have hs₁ := hs.resume hreaches
          exact ih.continue hs₁ (hnext W₁ hs₁.1.grows.le _) hafford

/-! ## Programs -/

/-- Every seed but the root. -/
def Seed.IsProper (υ : Seed) : Prop := υ ≠ []

theorem Seed.zone_isProper (k : Nat) : Seed.Zone Seed.IsProper [] k := by
  refine ⟨fun υ υ' hυ hpre heq => ?_, fun h => h rfl, fun υ hahead heq => ?_⟩
  · rw [heq] at hpre
    exact hυ (List.prefix_nil.1 hpre)
  · exact hahead.not_below (heq ▸ List.prefix_rfl)

/-- At the start of a program all seeds but the root are at its disposal, and none is in use. -/
theorem poised_start (setting : Setting) (store : Store) :
    Poised setting Seed.IsProper .empty (State.start store) [] 0 := by
  refine ⟨Seed.zone_isProper 0, ⟨.empty store, ⟨nofun, nofun, nofun, nofun⟩, nofun⟩, ?_⟩
  rintro υ - (h | h | h) <;> cases h

/-- A program for which the account yields a text settles on that text. -/
theorem program_settles {b : Option Nat} {printDepth : Nat} {root : Expr} {text : String}
    (h : Yields b [] 0 (programPlan ⟨setting, printDepth⟩ root) text)
    (hafford : Affords tolerant setting.maxDepth b 0) (store : Store) :
    Settles tolerant (fun n m => (programPlan ⟨setting, printDepth⟩ root).run (eval n) m)
      (State.start store) fun text' _ => text' = text := by
  have hrel := (followKinship setting Seed.IsProper).program_related (W := .empty) printDepth root
  have hall : SettlesAs setting tolerant b [] 0 _ text := settles_of_yields h
  refine (hall hrel (poised_start setting store) hafford).mono ?_
  rintro text' s' ⟨W', heq, -⟩
  exact heq.symm

end

end PolicyEval
