import PolicyEval.Proofs.Cost.Bill
import PolicyEval.Proofs.Sharing.Soundness

/-!
# What an evaluation is charged covers the bill of the account

An evaluation that succeeds is followed by an account that shares as much or more.  Whatever is on
the bill of the account, the evaluation was charged for: what the plan is charged of its own, at the
same requests, and each item at least once.  What the evaluation is charged beyond that, for running
a thunk again or for looking through two things that are one by the account, only adds to it.

A result that the evaluation keeps is free from then on, so the books say which items were charged
before.

* `Pairing.Booked` — everything on the bill of a kept result was charged before.
* `Pairing.Pays` — the toll of a computation covers what was not charged before.
* `Pairing.run_pays`, `Pairing.eval_pays` — plans and evaluations that succeed do so.
* `Pairing.program_pays` — so do programs.
-/

namespace PolicyEval

namespace Pairing

variable {P : Pairing} {g : Gauge}

/-- The matching agrees with the state, and the items on the bill of a kept result are among those
that were charged before. -/
structure Booked (P : Pairing) (g : Gauge) (W : Matching) (E : Set Item) (s : State) : Prop where
  tracks : W.Tracks P s.store
  kept : ∀ {address mark ρ' e v}, W.cell address = some (mark, ⟨P.account, ρ', e⟩) →
    s.store.kept? address = some v → ∃ v' t D, v.Mirrors P W v' ∧
      Bills g (Seed.ofCode mark) 0 (e.entry P.account ρ') v' t D ∧
        insert ⟨mark, ⟨P.account, ρ', e⟩, g.fee + t⟩ D ⊆ E

/-- Books stay right as long as no result is added. -/
theorem Booked.grow {W W' : Matching} {E : Set Item} {s s' : State} (h : P.Booked g W E s)
    (hle : W.le W') (htracks : W'.Tracks P s'.store)
    (hsame : ∀ {address c v}, W'.cell address = some c → s'.store.kept? address = some v →
      W.cell address = some c ∧ s.store.kept? address = some v) : P.Booked g W' E s' := by
  refine ⟨htracks, fun hcell hkept => ?_⟩
  obtain ⟨hcell, hkept⟩ := hsame hcell hkept
  obtain ⟨v', t, D, hv, hbill, hpaid⟩ := h.kept hcell hkept
  exact ⟨v', t, D, hv.mono hle, hbill, hpaid⟩

namespace Booked

variable {W : Matching} {E : Set Item} {s : State}

theorem withObject (h : P.Booked g W E s) (v : Value) :
    P.Booked g (W.withObject s.store.nextTag v) E { s with store := s.store.freshTag.2 } :=
  h.grow (Matching.le_withObject h.tracks.object_fresh v) (h.tracks.withObject v)
    fun hcell hkept => ⟨hcell, hkept⟩

theorem withCell (h : P.Booked g W E s) (c : Nat × Suspension) :
    P.Booked g (W.withCell s.store.cells.size c) E { s with store := s.store.allocate.2 } := by
  refine h.grow (Matching.le_withCell h.tracks.cell_fresh c) (h.tracks.withCell c) ?_
  intro address c' v hcell hkept
  rw [Store.kept?_allocate] at hkept
  by_cases heq : address = s.store.cells.size
  · -- The new cell keeps nothing yet.
    subst heq
    rw [Store.kept?, Array.getElem?_eq_none (Nat.le_refl _)] at hkept
    cases hkept
  · exact ⟨(if_neg heq).symm.trans hcell, hkept⟩

theorem withFrames (h : P.Booked g W E s) (σ : Seed) {ρ ρ' : Env} (henv : ρ.Mirrors P W ρ')
    {bs bs' : List (Name × Thunk)}
    (hbs : List.Forall₂ (fun b b' => b.1 = b'.1 ∧ b.2.Mirrors P W b'.2) bs bs') :
    P.Booked g (W.withFrames σ s.store.nextTag ρ' bs') E
      { s with store := (s.store.extend ρ bs).2 } := by
  obtain ⟨htracks, hle, -⟩ := h.tracks.withFrames σ henv hbs
  refine h.grow hle htracks fun hcell hkept => ?_
  rw [Matching.withFrames_cell] at hcell
  rw [Store.kept?, Store.extend_cells] at hkept
  exact ⟨hcell, hkept⟩

/-- A result is kept whose bill was charged. -/
theorem keep (h : P.Booked g W E s) {address mark t : Nat} {ρ' : Env} {e : Expr} {v v' : Value}
    {D : Set Item} (hcell : W.cell address = some (mark, ⟨P.account, ρ', e⟩))
    (hv : v.Mirrors P W v') (hbill : Bills g (Seed.ofCode mark) 0 (e.entry P.account ρ') v' t D)
    (hpaid : insert ⟨mark, ⟨P.account, ρ', e⟩, g.fee + t⟩ D ⊆ E) :
    P.Booked g W E { s with store := s.store.keep address v } := by
  refine ⟨h.tracks.keep hcell hv hbill.yields.of_entry, ?_⟩
  intro address₁ mark₁ ρ₁ e₁ v₁ hcell₁ hkept₁
  rw [Store.kept?_keep (h.tracks.cell_lt hcell)] at hkept₁
  by_cases heq : address₁ = address
  · subst heq
    rw [if_pos rfl] at hkept₁
    cases hkept₁
    rw [hcell] at hcell₁
    cases hcell₁
    exact ⟨v', t, D, hv, hbill, hpaid⟩
  · rw [if_neg heq] at hkept₁
    exact h.kept hcell₁ hkept₁

end Booked

/-- From one state to another, a toll covers a sum and items: an item was charged before, or its
price is part of the toll. -/
structure Pays (P : Pairing) (g : Gauge) (W : Matching) (E : Set Item) (W' : Matching)
    (E' : Set Item) (s' : State) (toll t : Nat) (D : Set Item) : Prop where
  le : W.le W'
  booked : P.Booked g W' E' s'
  listed : D ⊆ E'
  covered : ∃ items : Finset Item, E' = E ∪ ↑items ∧ t + Item.total items ≤ toll

namespace Pays

variable {W W' W'' : Matching} {E E' E'' : Set Item} {s' s'' : State} {toll toll' t t' : Nat}
  {D D' : Set Item}

/-- Without a charge there is nothing on the bill. -/
theorem free (hle : W.le W') (hbooked : P.Booked g W' E s') (hlisted : D ⊆ E) :
    P.Pays g W E W' E s' 0 0 D :=
  ⟨hle, hbooked, hlisted, ∅, by simp, by simp⟩

theorem subset (h : P.Pays g W E W' E' s' toll t D) : E ⊆ E' := by
  obtain ⟨items, rfl, -⟩ := h.covered
  exact Set.subset_union_left

theorem trans (h : P.Pays g W E W' E' s' toll t D) (h' : P.Pays g W' E' W'' E'' s'' toll' t' D') :
    P.Pays g W E W'' E'' s'' (toll + toll') (t + t') (D ∪ D') := by
  classical
  refine ⟨h.le.trans h'.le, h'.booked, Set.union_subset (h.listed.trans h'.subset) h'.listed, ?_⟩
  obtain ⟨items, rfl, hle⟩ := h.covered
  obtain ⟨items', rfl, hle'⟩ := h'.covered
  -- An item of both parts was charged twice, and one of its charges is to spare.
  refine ⟨items ∪ items', ?_, ?_⟩
  · rw [Finset.coe_union, Set.union_assoc]
  · have htotal := Item.total_union_le items items'
    omega

theorem since (h : P.Pays g W' E W'' E'' s'' toll t D) (hle : W.le W') :
    P.Pays g W E W'' E'' s'' toll t D :=
  ⟨hle.trans h.le, h.booked, h.listed, h.covered⟩

/-- What is not on the bill may be charged all the same. -/
theorem skip (h : P.Pays g W E W' E' s' toll t D) : P.Pays g W E W' E' s' toll 0 ∅ := by
  obtain ⟨items, heq, hle⟩ := h.covered
  exact ⟨h.le, h.booked, Set.empty_subset _, items, heq, by omega⟩

/-- What is charged first may not be on the bill. -/
theorem before (h : P.Pays g W E W' E' s' toll 0 ∅) (h' : P.Pays g W' E' W'' E'' s'' toll' t' D') :
    P.Pays g W E W'' E'' s'' (toll + toll') t' D' := by
  have hboth := h.trans h'
  rwa [Nat.zero_add, Set.empty_union] at hboth

/-- One more count on both sides. -/
theorem count (h : P.Pays g W E W' E' s' toll t D) (n : Nat) :
    P.Pays g W E W' E' s' (n + toll) (n + t) D := by
  obtain ⟨items, heq, hle⟩ := h.covered
  exact ⟨h.le, h.booked, h.listed, items, heq, by omega⟩

end Pays

/-- What a successful computation with a toll leads to: a later matching, and a bill that is
covered. -/
def Settled (P : Pairing) (g : Gauge) (W : Matching) (E : Set Item) (s' : State) (toll : Nat)
    (bill : Matching → Nat → Set Item → Prop) : Prop :=
  ∃ W' E' t D, P.Pays g W E W' E' s' toll t D ∧ bill W' t D

/-- Evaluations with this much fuel cover the bill of the account, at any seed. -/
def EvalPays (P : Pairing) (g : Gauge) (n : Nat) : Prop :=
  ∀ {W : Matching} {E : Set Item} {s s' : State} {ρ ρ' : Env} {e : Expr} {v : Value},
    P.Booked g W E s → ρ.Mirrors P W ρ' → eval n P.store ρ e s = .ok v s' → ∀ σ : Seed,
      P.Settled g W E s' (evalToll g n P.store ρ e s) fun W' t D =>
        ∃ v', v.Mirrors P W' v' ∧ Bills g σ 0 (e.entry P.account ρ') v' t D

/-- Comparisons with this much fuel cover the bill of the account, at any seed. -/
def ComparePays (P : Pairing) (g : Gauge) (n m : Nat) : Prop :=
  ∀ {W : Matching} {E : Set Item} {s s' : State} {todo todo' : List Comparison} {b : Bool},
    P.Booked g W E s → P.Queue W todo todo' → compareAll (eval n) m todo s = .ok b s' →
      ∀ σ : Seed, P.Settled g W E s' (compareToll g (eval n) (evalToll g n) m todo s)
        fun _ t D => Bills g σ 0 (stepPlan Comparison.coincides todo') b t D

section

variable {n : Nat} (hn : P.EvalPays g n) {W : Matching} {E : Set Item} {s s' : State}
include hn

theorem suspension_pays {ρ ρ' : Env} {e : Expr} {v : Value} (hs : P.Booked g W E s)
    (henv : ρ.Mirrors P W ρ') (hrun : Suspension.run (eval n) ⟨P.store, ρ, e⟩ s = .ok v s')
    (σ : Seed) :
    ∃ W' E' t D v', v.Mirrors P W' v' ∧ Bills g σ 0 (e.entry P.account ρ') v' t D ∧
      P.Pays g W E W' E' s' (Suspension.toll g (evalToll g n) ⟨P.store, ρ, e⟩ s) (g.fee + t) D := by
  have hcounted : P.Booked g W E { s with counters := s.counters.countForced } :=
    ⟨hs.tracks, hs.kept⟩
  obtain ⟨W', E', t, D, hpays, v', hv, hbill⟩ := hn hcounted henv hrun σ
  exact ⟨W', E', t, D, v', hv, hbill, hpays.count g.fee⟩

/-- The bill of a thunk that the account evaluates once has it as an item. -/
theorem once_pays (mark : Nat) {ρ ρ' : Env} {e : Expr} {v : Value} (hs : P.Booked g W E s)
    (henv : ρ.Mirrors P W ρ') (hrun : Suspension.run (eval n) ⟨P.store, ρ, e⟩ s = .ok v s') :
    ∃ W' E' t D v', v.Mirrors P W' v' ∧
      Bills g (Seed.ofCode mark) 0 (e.entry P.account ρ') v' t D ∧
      P.Pays g W E W' E' s' (Suspension.toll g (evalToll g n) ⟨P.store, ρ, e⟩ s) 0
        (insert ⟨mark, ⟨P.account, ρ', e⟩, g.fee + t⟩ D) := by
  classical
  obtain ⟨W', E', t, D, v', hv, hbill, hpays⟩ :=
    suspension_pays hn hs henv hrun (Seed.ofCode mark)
  obtain ⟨items, rfl, hle⟩ := hpays.covered
  -- What the plan of the expression is charged of its own becomes the price of the new item.
  let item : Item := ⟨mark, ⟨P.account, ρ', e⟩, g.fee + t⟩
  have hmore : E ∪ ↑items ⊆ E ∪ ↑(insert item items) :=
    Set.union_subset_union_right E (by simp)
  have hitem : item ∈ E ∪ ↑(insert item items) := .inr (by simp)
  have hbooked : P.Booked g W' (E ∪ ↑(insert item items)) s' := by
    refine ⟨hpays.booked.tracks, fun hcell hkept => ?_⟩
    obtain ⟨u, t', D', hu, hbill', hpaid⟩ := hpays.booked.kept hcell hkept
    exact ⟨u, t', D', hu, hbill', hpaid.trans hmore⟩
  refine ⟨W', _, t, D, v', hv, hbill, hpays.le, hbooked, ?_, insert item items, rfl, ?_⟩
  · exact Set.insert_subset hitem (hpays.listed.trans hmore)
  · have htotal := Item.total_insert_le item items
    have hprice : item.price = g.fee + t := rfl
    omega

/-- Forcing covers the bill of the account if evaluating does. -/
theorem force_pays {x x' : Thunk} {v : Value} (hs : P.Booked g W E s) (hx : x.Mirrors P W x')
    (hrun : force (eval n) x s = .ok v s') (σ : Seed) :
    P.Settled g W E s' (forceToll g (evalToll g n) x s) fun W' t D =>
      ∃ v', v.Mirrors P W' v' ∧ x'.Bills g σ v' t D := by
  cases hx with
  | ready hv =>
      cases hrun
      exact ⟨W, E, 0, ∅, .free (.refl W) hs (Set.empty_subset E), _, hv, .ready⟩
  | byName henv =>
      obtain ⟨W', E', t, D, v', hv, hbill, hpays⟩ := suspension_pays hn hs henv hrun σ
      exact ⟨W', E', _, D, hpays, v', hv, .byName hbill⟩
  | @rerun mark ρ ρ' e hreruns henv =>
      -- Run here at every use, once by the account: later runs list an item that is listed already.
      obtain ⟨W', E', t, D, v', hv, hbill, hpays⟩ := once_pays hn mark hs henv hrun
      exact ⟨W', E', 0, _, hpays, v', hv, .byNeed hbill⟩
  | @byNeed address mark ρ ρ' e hcell henv =>
      cases hkept : s.store.kept? address with
      | some kept =>
          rw [Eval.force_of_kept hkept] at hrun
          cases hrun
          obtain ⟨v', t, D, hv, hbill, hpaid⟩ := hs.kept hcell hkept
          rw [forceToll_of_kept g _ hkept]
          exact ⟨W, E, 0, _, .free (.refl W) hs hpaid, v', hv, .byNeed hbill⟩
      | none =>
          rw [Eval.force_of_pending hkept] at hrun
          obtain ⟨u, s₁, hsuspension, hkeep⟩ := Eval.bind_eq_ok.1 hrun
          obtain ⟨W', E', t, D, u', hu, hbill, hpays⟩ := once_pays hn mark hs henv hsuspension
          have hcell' := hpays.le.cell hcell
          rw [forceToll_of_pending g _ hkept]
          rw [Eval.keep_apply] at hkeep
          cases hkept₁ : s₁.store.kept? address with
          | some kept =>
              -- A result that came first stays; its bill was covered then.
              rw [hkept₁] at hkeep
              cases hkeep
              obtain ⟨v', t', D', hv, hbill', hpaid⟩ := hpays.booked.kept hcell' hkept₁
              exact ⟨W', E', 0, _, ⟨hpays.le, hpays.booked, hpaid, hpays.covered⟩, v', hv,
                .byNeed hbill'⟩
          | none =>
              rw [hkept₁] at hkeep
              cases hkeep
              have hbooked := hpays.booked.keep hcell' hu hbill hpays.listed
              exact ⟨W', E', 0, _, ⟨hpays.le, hbooked, hpays.listed, hpays.covered⟩, u', hu,
                .byNeed hbill⟩

/-- Delaying covers the bill of the account if evaluating does. -/
theorem delay_pays (hP : P.Follows false) {ρ ρ' : Env} {e : Expr} {x : Thunk}
    {axis : Policy → Discipline} (haxis : axis = Policy.args ∨ axis = Policy.lists)
    (hs : P.Booked g W E s) (henv : ρ.Mirrors P W ρ')
    (hrun : delay (eval n) (axis P.store.policy) P.store ρ e s = .ok x s') (σ : Seed) (k : Nat) :
    P.Settled g W E s' (delayToll (evalToll g n) (axis P.store.policy) P.store ρ e s)
      fun W' t D => ∃ x', x.Mirrors P W' x' ∧
        ∀ {α : Type} {next : Thunk → Plan α} {a : α} {t' : Nat} {D' : Set Item},
          Bills g σ (k + 1) (next x') a t' D' →
            Bills g σ k (.delay (axis P.account.policy) P.account ρ' e next) a (t + t')
              (D ∪ D') := by
  have hfree : ∀ {α : Type} {p : Plan α} {a : α} {t : Nat} {D : Set Item}, Bills g σ k p a t D →
      Bills g σ k p a (0 + t) (∅ ∪ D) := by
    intro α p a t D h
    rwa [Nat.zero_add, Set.empty_union]
  cases hstore : axis P.store.policy with
  | value =>
      rw [hstore] at hrun
      have haccount := hP.axis_eq haxis hstore (by decide)
      obtain ⟨v, s₁, heval, hpure⟩ := Eval.bind_eq_ok.1 hrun
      cases hpure
      obtain ⟨W', E', t, D, hpays, v', hv, hbill⟩ := hn hs henv heval (σ ++ [k])
      refine ⟨W', E', t, D, hpays, .ready v', .ready hv, fun h => ?_⟩
      rw [haccount]
      exact .delayValue hbill h
  | name =>
      rw [hstore] at hrun
      cases hrun
      -- What the evaluation runs at every use, the account may evaluate once.
      rcases hP.axis axis haxis with heq | ⟨hreruns, -, hneed⟩
      · refine ⟨W, E, 0, ∅, .free (.refl W) hs (Set.empty_subset E), .byName ⟨P.account, ρ', e⟩,
          .byName henv, fun h => hfree ?_⟩
        rw [heq, hstore]
        exact .delayName h
      · refine ⟨W, E, 0, ∅, .free (.refl W) hs (Set.empty_subset E),
          .byNeed (Seed.code (σ ++ [k])) ⟨P.account, ρ', e⟩, .rerun hreruns henv, fun h => hfree ?_⟩
        rw [hneed]
        exact .delayNeed h
  | need =>
      rw [hstore] at hrun
      have haccount := hP.axis_eq haxis hstore (by decide)
      cases hrun
      obtain ⟨hle, hthunk⟩ := hs.tracks.byNeed_mirrors (Seed.code (σ ++ [k])) e henv
      refine ⟨_, E, 0, ∅, .free hle (hs.withCell _) (Set.empty_subset E),
        .byNeed (Seed.code (σ ++ [k])) ⟨P.account, ρ', e⟩, hthunk, fun h => hfree ?_⟩
      rw [haccount]
      exact .delayNeed h

/-- A plan that succeeds covers the bill of the account if evaluating and comparing do. -/
theorem run_pays (hP : P.Follows false) {m : Nat} (hm : P.ComparePays g n m) {α β : Type}
    {post : P.kinship.World → α → β → Prop} {W : P.kinship.World} {p : Plan α} {q : Plan β}
    (hrel : Plan.Related P.kinship post W p q) {a : α} (hs : P.Booked g W E s)
    (hrun : p.run (eval n) m s = .ok a s') (σ : Seed) (k : Nat) :
    P.Settled g W E s' (p.tollWith g n m s) fun W' t D =>
      ∃ a', post W' a a' ∧ Bills g σ k q a' t D := by
  -- The induction is on how the plans are related.  The toll of a request and the toll of what
  -- follows are covered one after the other, in the order in which the books are written.
  induction hrel generalizing s E k with
  | done h =>
      cases hrun
      exact ⟨_, E, 0, ∅, .free (.refl _) hs (Set.empty_subset E), _, h, .done⟩
  | fail => cases hrun
  | @count W step p q _ ih =>
      have hcounted : P.Booked g W E { s with counters := step s.counters } :=
        ⟨hs.tracks, hs.kept⟩
      obtain ⟨W', E', t, D, hpays, a', hpost, hbill⟩ := ih hcounted hrun k
      exact ⟨W', E', _, D, hpays.count (g.weight step), a', hpost, .count hbill⟩
  | @eval W ρ ρ' e next next' henv _ ih =>
      obtain ⟨v, s₁, heval, hrest⟩ := Eval.bind_eq_ok.1 hrun
      obtain ⟨W₁, E₁, t₁, D₁, h₁, v', hv, hbill⟩ := hn hs henv heval (σ ++ [k])
      obtain ⟨W₂, E₂, t₂, D₂, h₂, a', hpost, hnext⟩ :=
        ih W₁ h₁.le v v' hv h₁.booked hrest (k + 1)
      rw [Plan.tollWith_eval heval]
      exact ⟨W₂, E₂, _, _, h₁.trans h₂, a', hpost, .eval hbill hnext⟩
  | @force W x x' next next' hthunk _ ih =>
      obtain ⟨v, s₁, hforce, hrest⟩ := Eval.bind_eq_ok.1 hrun
      obtain ⟨W₁, E₁, t₁, D₁, h₁, v', hv, hbill⟩ := force_pays hn hs hthunk hforce (σ ++ [k])
      obtain ⟨W₂, E₂, t₂, D₂, h₂, a', hpost, hnext⟩ :=
        ih W₁ h₁.le v v' hv h₁.booked hrest (k + 1)
      rw [Plan.tollWith_force hforce]
      exact ⟨W₂, E₂, _, _, h₁.trans h₂, a', hpost, hbill.force hnext⟩
  | @delay W axis ρ ρ' e next next' haxis henv _ ih =>
      obtain ⟨x, s₁, hdelay, hrest⟩ := Eval.bind_eq_ok.1 hrun
      obtain ⟨W₁, E₁, t₁, D₁, h₁, x', hx, hbill⟩ :=
        delay_pays hn hP haxis hs henv hdelay σ k
      obtain ⟨W₂, E₂, t₂, D₂, h₂, a', hpost, hnext⟩ :=
        ih W₁ h₁.le x x' hx h₁.booked hrest (k + 1)
      rw [Plan.tollWith_delay hdelay]
      exact ⟨W₂, E₂, _, _, h₁.trans h₂, a', hpost, hbill hnext⟩
  | @cell W x x' y y' next next' hhead htail _ _ ih =>
      obtain ⟨tag, s₁, hfresh, hrest⟩ := Eval.bind_eq_ok.1 hrun
      cases hfresh
      obtain ⟨hle, hcell⟩ := hs.tracks.cons_mirrors (Seed.code (σ ++ [k])) hhead htail
      obtain ⟨W₂, E₂, t, D, h₂, a', hpost, hnext⟩ :=
        ih _ hle _ _ hcell (hs.withObject _) hrest (k + 1)
      exact ⟨W₂, E₂, t, D, h₂.since hle, a', hpost, .cell hnext⟩
  | @closure W lambda ρ ρ' next next' henv _ ih =>
      obtain ⟨tag, s₁, hfresh, hrest⟩ := Eval.bind_eq_ok.1 hrun
      cases hfresh
      obtain ⟨hle, hclosure⟩ := hs.tracks.closure_mirrors (Seed.code (σ ++ [k])) lambda henv
      obtain ⟨W₂, E₂, t, D, h₂, a', hpost, hnext⟩ :=
        ih _ hle _ _ hclosure (hs.withObject _) hrest (k + 1)
      exact ⟨W₂, E₂, t, D, h₂.since hle, a', hpost, .closure hnext⟩
  | @extend W ρ ρ' bs bs' next next' henv hbs _ ih =>
      obtain ⟨inner, s₁, hextend, hrest⟩ := Eval.bind_eq_ok.1 hrun
      cases hextend
      obtain ⟨-, hle, hinner⟩ := hs.tracks.withFrames (σ ++ [k]) henv hbs
      obtain ⟨W₂, E₂, t, D, h₂, a', hpost, hnext⟩ :=
        ih _ hle _ _ hinner (hs.withFrames (σ ++ [k]) henv hbs) hrest (k + 1)
      exact ⟨W₂, E₂, t, D, h₂.since hle, a', hpost, .extend hnext⟩
  | @compare W todo todo' next next' htodo _ ih =>
      obtain ⟨b, s₁, hcompare, hrest⟩ := Eval.bind_eq_ok.1 hrun
      obtain ⟨W₁, E₁, t₁, D₁, h₁, hbill⟩ := hm hs htodo hcompare (σ ++ [k])
      obtain ⟨W₂, E₂, t₂, D₂, h₂, a', hpost, hnext⟩ := ih W₁ h₁.le b h₁.booked hrest (k + 1)
      rw [Plan.tollWith_compare hcompare]
      exact ⟨W₂, E₂, _, _, h₁.trans h₂, a', hpost, .compare hbill hnext⟩

/-! ## Comparisons that the account skips -/

/-- Two thunks that are one by the account have values that are one by the account; what they are
charged is not on its bill. -/
theorem force_twins_pays {s₁ s₂ : State} {x y z : Thunk} {v u : Value} (hs : P.Booked g W E s)
    (hx : x.Mirrors P W z) (hy : y.Mirrors P W z) (hv : force (eval n) x s = .ok v s₁)
    (hu : force (eval n) y s₁ = .ok u s₂) :
    ∃ W' E' w, P.Pays g W E W' E' s₂
        (forceToll g (evalToll g n) x s + forceToll g (evalToll g n) y s₁) 0 ∅ ∧
      v.Mirrors P W' w ∧ u.Mirrors P W' w := by
  -- Both runs are followed at one and the same seed, where the account yields one thing only.
  obtain ⟨W₁, E₁, t₁, D₁, h₁, w, hw, hbill⟩ := force_pays hn hs hx hv []
  obtain ⟨W₂, E₂, t₂, D₂, h₂, w', hw', hbill'⟩ := force_pays hn h₁.booked (hy.mono h₁.le) hu []
  obtain rfl := hbill.unique hbill'
  exact ⟨W₂, E₂, w, (h₁.trans h₂).skip, hw.mono h₂.le, hw'⟩

variable {m : Nat} (hm : P.ComparePays g n m) {todo todo' : List Comparison} {b : Bool}
include hm

/-- A meeting of two things that are one by the account leaves nothing on its bill but the
comparisons that follow. -/
theorem meeting_skip_pays {meeting meeting' : Meeting} (hs : P.Booked g W E s)
    (hmeeting : P.kinship.Meets W meeting meeting') (hsame : meeting'.IsReflexive)
    (htodo : P.Queue W todo todo') (hrun : (meeting.plan todo).run (eval n) m s = .ok b s')
    (σ : Seed) :
    P.Settled g W E s' ((meeting.plan todo).tollWith g n m s) fun _ t D =>
      Bills g σ 0 (stepPlan Comparison.coincides todo') b t D := by
  cases hmeeting with
  | equal =>
      obtain ⟨b', s₁, hcompare, hpure⟩ := Eval.bind_eq_ok.1 hrun
      cases hpure
      rw [Meeting.plan, Plan.tollWith_compare hcompare]
      exact hm hs htodo hcompare σ
  | unequal => exact hsame.elim
  | envs hleft hright =>
      obtain ⟨b', s₁, hcompare, hpure⟩ := Eval.bind_eq_ok.1 hrun
      cases hpure
      rw [Meeting.plan, Plan.tollWith_compare hcompare]
      exact hm hs (.skip (.envs hleft hright) hsame htodo) hcompare σ
  | parts hx hy hc =>
      obtain ⟨rfl, hsame⟩ := hsame
      obtain ⟨v, s₁, hv, hrun⟩ := Eval.bind_eq_ok.1 hrun
      obtain ⟨u, s₂, hu, hrun⟩ := Eval.bind_eq_ok.1 hrun
      obtain ⟨b', s₃, hcompare, hpure⟩ := Eval.bind_eq_ok.1 hrun
      cases hpure
      rw [Meeting.plan, Plan.tollWith_force hv, Plan.tollWith_force hu,
        Plan.tollWith_compare hcompare, ← Nat.add_assoc]
      obtain ⟨W₁, E₁, w, h₁, hvw, huw⟩ := force_twins_pays hn hs hx hy hv hu
      have hqueue : P.Queue W₁ (.values v u :: _ :: todo) todo' :=
        .skip (.values hvw huw) rfl (.skip (sameKind_mono h₁.le hc) hsame (queue_mono h₁.le htodo))
      obtain ⟨W₂, E₂, t, D, h₂, hbill⟩ := hm h₁.booked hqueue hcompare σ
      exact ⟨W₂, E₂, t, D, h₁.before h₂, hbill⟩

/-- The account may skip a comparison of a thing with itself; what it is charged only adds. -/
theorem plan_skip_pays {c c' : Comparison} (hs : P.Booked g W E s)
    (hc : c.SameKind (Value.Mirrors P W) (Env.Mirrors P W) c') (hsame : c'.IsReflexive)
    (htodo : P.Queue W todo todo') (hrun : (c.plan todo).run (eval n) m s = .ok b s')
    (σ : Seed) :
    P.Settled g W E s' ((c.plan todo).tollWith g n m s) fun _ t D =>
      Bills g σ 0 (stepPlan Comparison.coincides todo') b t D := by
  cases hc with
  | @values v w v' w' hv hw =>
      obtain rfl : v' = w' := hsame
      have hmeeting := P.kinship.values_meet (W := W) hv hw
      exact meeting_skip_pays hn hm hs hmeeting v'.meet_self_isReflexive htodo hrun σ
  | @envs ρ₁ ρ₂ ρ₁' ρ₂' h₁ h₂ =>
      obtain rfl : ρ₁' = ρ₂' := hsame
      have hmeeting := P.kinship.envs_meet (W := W) h₁ h₂
      exact meeting_skip_pays hn hm hs hmeeting ρ₁'.meet_self_isReflexive htodo hrun σ
  | @tails _ _ _ _ x x' y y' _ _ _ _ ha hb =>
      obtain rfl : x' = y' := hsame
      have hx := ha.layer.tails
      have hy := hb.layer.tails
      simp only [Comparison.plan, Plan.run, Plan.run_lift] at hrun
      obtain ⟨v, s₁, hv, hrun⟩ := Eval.bind_eq_ok.1 hrun
      obtain ⟨v₁, s₂, hvlist, hrun⟩ := Eval.bind_eq_ok.1 hrun
      obtain ⟨hvtail, rfl⟩ := Eval.lift_eq_ok.1 hvlist
      obtain ⟨u, s₃, hu, hrun⟩ := Eval.bind_eq_ok.1 hrun
      obtain ⟨u₁, s₄, hulist, hrun⟩ := Eval.bind_eq_ok.1 hrun
      obtain ⟨hutail, rfl⟩ := Eval.lift_eq_ok.1 hulist
      obtain ⟨b', s₅, hcompare, hpure⟩ := Eval.bind_eq_ok.1 hrun
      cases hpure
      rw [Comparison.plan, Plan.tollWith_force hv, hvtail, Plan.lift, Plan.tollWith_force hu,
        hutail, Plan.lift, Plan.tollWith_compare hcompare, ← Nat.add_assoc]
      obtain rfl := (asTail_eq_ok.1 hvtail).2
      obtain rfl := (asTail_eq_ok.1 hutail).2
      -- Both second parts are one thing by the account, and so are their values.
      obtain ⟨W₁, E₁, w, h₁, hvw, huw⟩ := force_twins_pays hn hs hx hy hv hu
      have hqueue : P.Queue W₁ (.values v₁ u₁ :: todo) todo' :=
        .skip (.values hvw huw) rfl (queue_mono h₁.le htodo)
      obtain ⟨W₂, E₂, t, D, h₂, hbill⟩ := hm h₁.booked hqueue hcompare σ
      exact ⟨W₂, E₂, t, D, h₁.before h₂, hbill⟩

/-- The account may skip a step that compares a thing with itself. -/
theorem step_skip_pays {c c' : Comparison} (hs : P.Booked g W E s)
    (hc : c.SameKind (Value.Mirrors P W) (Env.Mirrors P W) c') (hsame : c'.IsReflexive)
    (htodo : P.Queue W todo todo')
    (hrun : (stepPlan Comparison.identical (c :: todo)).run (eval n) m s = .ok b s') (σ : Seed) :
    P.Settled g W E s' ((stepPlan Comparison.identical (c :: todo)).tollWith g n m s) fun _ t D =>
      Bills g σ 0 (stepPlan Comparison.coincides todo') b t D := by
  by_cases hidentical : c.identical = true
  · rw [stepPlan, if_pos hidentical] at hrun ⊢
    obtain ⟨b', s₁, hcompare, hpure⟩ := Eval.bind_eq_ok.1 hrun
    cases hpure
    rw [Plan.tollWith_compare hcompare]
    exact hm hs htodo hcompare σ
  · rw [stepPlan, if_neg hidentical] at hrun ⊢
    exact plan_skip_pays hn hm hs hc hsame htodo hrun σ

end

/-- Comparing covers the bill of the account if evaluating does. -/
theorem compare_pays (hP : P.Follows false) {n : Nat} (hn : P.EvalPays g n) (m : Nat) :
    P.ComparePays g n m := by
  induction m with
  | zero =>
      intro W E s s' todo todo' b hs hqueue hrun
      cases hrun
  | succ m ih =>
      intro W E s s' todo todo' b hs hqueue hrun σ
      rw [compareAll_succ] at hrun
      change P.Settled g W E s' ((stepPlan Comparison.identical todo).tollWith g n m s) _
      cases hqueue with
      | nil =>
          cases hrun
          exact ⟨W, E, 0, ∅, .free (.refl W) hs (Set.empty_subset E), .done⟩
      | skip hc hsame htodo => exact step_skip_pays hn ih hs hc hsame htodo hrun σ
      | @cons c c' rest rest' hc htodo =>
          by_cases hcoincides : c'.coincides = true
          · -- One thing by the account: it goes on with the rest, whatever the evaluation does.
            obtain ⟨W', E', t, D, hpays, hbill⟩ := step_skip_pays hn ih hs hc
              (Comparison.isReflexive_of_coincides hcoincides) htodo hrun (σ ++ [0])
            refine ⟨W', E', t, D, hpays, ?_⟩
            rw [stepPlan, if_pos hcoincides]
            have hrest : Bills g σ 0 (.compare rest' .done) b (t + 0) (D ∪ ∅) :=
              .compare hbill .done
            rwa [Nat.add_zero, Set.union_empty] at hrest
          · have hidentical : ¬c.identical = true :=
              fun h => hcoincides (coincides_of_identical hc h)
            rw [stepPlan, if_neg hidentical] at hrun ⊢
            have hrel := P.kinship.comparison_related (W := W) htodo hc
            obtain ⟨W', E', t, D, hpays, b', rfl, hbill⟩ := run_pays hn hP ih hrel hs hrun σ 0
            refine ⟨W', E', t, D, hpays, ?_⟩
            rw [stepPlan, if_neg hcoincides]
            exact hbill

/-- Evaluations that succeed cover the bill of the account, whatever their fuel. -/
theorem eval_pays (hP : P.Follows false) (n : Nat) : P.EvalPays g n := by
  induction n with
  | zero =>
      intro W E s s' ρ ρ' e v hs henv hrun
      cases hrun
  | succ n ih =>
      intro W E s s' ρ ρ' e v hs henv hrun σ
      rw [eval_succ, Eval.within_eq_ok] at hrun
      obtain ⟨hroom, s₁, hbody, rfl⟩ := hrun
      have hrel : Plan.Related P.kinship P.kinship.value W
          (.count Counters.countExpression (e.plan P.store ρ)) (e.entry P.account ρ') :=
        .count (P.kinship.plan_related (W := W) henv e)
      obtain ⟨W', E', t, D, hpays, v', hv, hbill⟩ := run_pays ih hP (compare_pays hP ih n) hrel
        (s := { s with depth := s.depth.deeper }) ⟨hs.tracks, hs.kept⟩ hbody σ 0
      rw [evalToll_of_hasRoom g hroom]
      refine ⟨W', E', t, D, ⟨hpays.le, ?_, hpays.listed, hpays.covered⟩, v', hv, hbill⟩
      exact ⟨hpays.booked.tracks, hpays.booked.kept⟩

/-- The toll of a program that succeeds covers the bill of the account. -/
theorem program_pays (hP : P.Follows false) (g : Gauge) {fuel printDepth : Nat} {root : Expr}
    {store : Store} {s' : State} {text : String}
    (hrun : runProgram fuel ⟨P.store, printDepth⟩ root (State.start store) = .ok text s') :
    ∃ t D, Bills g [] 0 (programPlan ⟨P.account, printDepth⟩ root) text t D ∧
      ∃ items : Finset Item, D ⊆ ↑items ∧
        t + Item.total items ≤ runToll g fuel ⟨P.store, printDepth⟩ root (State.start store) := by
  rw [runProgram_eq_run] at hrun
  have heval : P.EvalPays g fuel := eval_pays hP fuel
  have hrel := P.kinship.program_related (W := .empty) printDepth root
  have hstart : P.Booked g .empty ∅ (State.start store) := by
    refine ⟨.empty store, ?_⟩
    intro address mark ρ' e v hcell
    cases hcell
  obtain ⟨W', E', t, D, hpays, text', rfl, hbill⟩ :=
    run_pays heval hP (compare_pays hP heval fuel) hrel hstart hrun [] 0
  obtain ⟨items, rfl, hle⟩ := hpays.covered
  refine ⟨t, D, hbill, items, ?_, hle⟩
  rw [Set.empty_union] at hpays
  exact hpays.listed

end Pairing

end PolicyEval
