import PolicyEval.Proofs.Cells.Events
import PolicyEval.Proofs.Cells.Heap

/-!
# Evaluations leave running cells alone

While the suspensions of some cells are being evaluated, everything that the evaluation can get at
is apart from these cells.  So no event of the evaluation concerns one of them, and the events of
every other cell are a life: it settles at most once.

* `Heap.Advances` — what a computation with some events may do to a heap.
* `Safely` — a computation does this, and its result is apart from the running cells.
* `force_safe`, `run_safe`, `eval_safe` — forces, plans and evaluations do.
-/

namespace PolicyEval

/-! ## Steps of a heap -/

/-- While the cells in `R` are running, the events lead from one heap to a later one: none of them
concerns a running cell, those of any one cell are a life, and a cell is entered for the sake of its
own suspension. -/
structure Heap.Advances (R : List Nat) (H : Heap) (events : List Event) (H' : Heap) : Prop where
  le : Heap.Le R H H'
  sound : H'.Sound
  quiet : ∀ event ∈ events, event.address ∉ R
  lives : ∀ x, Life x (H.kept x) (eventsOf x events) (H'.kept x)
  entered : ∀ {x q}, Event.enter x q ∈ events → H'.Knows x q

namespace Heap.Advances

variable {R : List Nat} {H H' H'' : Heap} {events events' : List Event}

/-- Nothing happens to any cell. -/
theorem of_le (hle : Heap.Le R H H') (hH' : H'.Sound) (hkept : H'.kept = H.kept) :
    H.Advances R [] H' where
  le := hle
  sound := hH'
  quiet := List.forall_mem_nil _
  lives x := by
    rw [hkept]
    exact .nil
  entered hmem := (List.not_mem_nil hmem).elim

theorem refl (hH : H.Sound) : H.Advances R [] H := of_le (.refl R H) hH rfl

theorem trans (h : H.Advances R events H') (h' : H'.Advances R events' H'') :
    H.Advances R (events ++ events') H'' where
  le := h.le.trans h'.le
  sound := h'.sound
  quiet := List.forall_mem_append.2 ⟨h.quiet, h'.quiet⟩
  lives x := by
    rw [eventsOf_append]
    exact (h.lives x).append (h'.lives x)
  entered hmem := (List.mem_append.1 hmem).elim (fun hmem => h'.le.knows (h.entered hmem)) h'.entered

/-- Running cells do not change. -/
theorem kept_eq {r : Nat} (h : H.Advances R events H') (hr : r ∈ R) : H'.kept r = H.kept r := by
  have hnone : eventsOf r events = [] :=
    eventsOf_eq_nil fun event hevent heq => h.quiet event hevent (heq ▸ hr)
  have hlife := h.lives r
  rw [hnone] at hlife
  exact hlife.eq_of_nil

theorem running (h : H.Advances R events H') (hR : H.Running R) : H'.Running R := by
  intro r hr
  obtain ⟨hlt, hkept⟩ := hR r hr
  exact ⟨(h.le.knows (List.getElem?_eq_getElem hlt)).lt, (h.kept_eq hr).trans hkept⟩

/-- A kept result is read. -/
theorem read (hH : H.Sound) {x : Nat} {v : Value} (hx : x ∉ R) (hv : H.kept x = some v) :
    H.Advances R [.read x v] H where
  le := .refl R H
  sound := hH
  quiet := List.forall_mem_singleton.2 hx
  lives y := by
    have hread : (Event.read x v).address = x := rfl
    by_cases hxy : x = y
    · subst hxy
      rw [eventsOf_cons_self hread, hv]
      exact .read .nil
    · rw [eventsOf_cons_of_ne (hread ▸ hxy)]
      exact .nil
  entered h := by simp at h

/-- A cell is entered, and after whatever happens while it runs there is a last event of it. -/
theorem bracket {x : Nat} {q : Suspension} {last : Event} (h : H.Advances (x :: R) events H')
    (hq : H.Knows x q) (hx : x ∉ R) (hle : Heap.Le R H' H'') (hH'' : H''.Sound)
    (hother : ∀ y, y ≠ x → H''.kept y = H'.kept y) (hlast : last.address = x)
    (hend : ∀ p, last ≠ .enter x p)
    (hlife : Life x (H.kept x) [.enter x q, last] (H''.kept x)) :
    H.Advances R (.enter x q :: (events ++ [last])) H'' where
  le := (h.le.mono fun r hr => List.mem_cons_of_mem x hr).trans hle
  sound := hH''
  quiet event hevent := by
    simp only [List.mem_cons, List.mem_append, List.not_mem_nil, or_false] at hevent
    rcases hevent with rfl | hevent | rfl
    · exact hx
    · exact fun hr => h.quiet event hevent (List.mem_cons_of_mem x hr)
    · rw [hlast]
      exact hx
  lives y := by
    have henter : (Event.enter x q).address = x := rfl
    -- Nothing happens to a cell while it runs, so it has these two events only.
    by_cases hxy : x = y
    · subst hxy
      have hnone : eventsOf x events = [] :=
        eventsOf_eq_nil fun event hevent heq => h.quiet event hevent (heq ▸ List.mem_cons_self)
      rw [eventsOf_cons_self henter, eventsOf_append, hnone, List.nil_append,
        eventsOf_cons_self hlast]
      exact hlife
    · have hlives := (h.lives y).append .nil
      rw [eventsOf_cons_of_ne (henter ▸ hxy), eventsOf_append,
        eventsOf_cons_of_ne (hlast.symm ▸ hxy), hother y (Ne.symm hxy)]
      exact hlives
  entered {y p} hmem := by
    simp only [List.mem_cons, List.mem_append, List.not_mem_nil, or_false] at hmem
    rcases hmem with heq | hmem | rfl
    · cases heq
      exact hle.knows (h.le.knows hq)
    · exact hle.knows (h.entered hmem)
    · cases hlast
      exact absurd rfl (hend p)

end Heap.Advances

/-! ## Safe computations -/

/-- While the cells in `R` are running, a computation over a sound heap makes the heap advance,
however it ends.  If it succeeds, no evaluation of a suspension stopped
on the way. -/
def Safely (R : List Nat) (H : Heap) {α : Type} (post : Heap → α → Prop) (body : Eval α)
    (log : Log) : Prop :=
  ∀ s, H.Sound → H.Running R → H.Describes s.store →
    ∃ H', H.Advances R (log s) H' ∧
      match body s with
      | .ok a s' => H'.Describes s'.store ∧ post H' a ∧ ∀ x stop, Event.stop x stop ∉ log s
      | .error _ s' => H'.Describes s'.store

namespace Safely

variable {R : List Nat} {H : Heap} {α β : Type} {post : Heap → α → Prop}

/-- Steps without events that leave the heap as it is. -/
theorem of_step {body : Eval α}
    (h : ∀ s, H.Describes s.store →
      ∃ a s', body s = .ok a s' ∧ H.Describes s'.store ∧ post H a) :
    Safely R H post body fun _ => [] := by
  intro s hH _ hs
  obtain ⟨a, s', hrun, hs', hpost⟩ := h s hs
  refine ⟨H, .refl hH, ?_⟩
  rw [hrun]
  exact ⟨hs', hpost, fun _ _ => List.not_mem_nil⟩

theorem pure {a : α} (h : post H a) : Safely R H post (Pure.pure a) fun _ => [] :=
  of_step fun s hs => ⟨a, s, rfl, hs, h⟩

theorem throw (stop : Stop) : Safely R H post (MonadExcept.throw stop) fun _ => [] :=
  fun _ hH _ hs => ⟨H, .refl hH, hs⟩

theorem count (step : Counters → Counters) :
    Safely R H (fun H' _ => H' = H) (Eval.count step) fun _ => [] :=
  of_step fun s hs => ⟨(), { s with counters := step s.counters }, rfl, hs, rfl⟩

theorem mono {post' : Heap → α → Prop} {body : Eval α} {log : Log}
    (h : Safely R H post body log) (himp : ∀ H' a, post H' a → post' H' a) :
    Safely R H post' body log := by
  intro s hH hR hs
  obtain ⟨H', hadvances, hend⟩ := h s hH hR hs
  refine ⟨H', hadvances, ?_⟩
  cases hrun : body s with
  | ok a s' =>
      rw [hrun] at hend
      exact ⟨hend.1, himp H' a hend.2.1, hend.2.2⟩
  | error stop s' =>
      rw [hrun] at hend
      exact hend

/-- A result that is put into another form. -/
theorem map {mid : Heap → β → Prop} {body : Eval β} {log : Log} {f : β → α}
    (h : Safely R H mid body log) (himp : ∀ H' b, mid H' b → post H' (f b)) :
    Safely R H post (body >>= fun b => Pure.pure (f b)) log := by
  intro s hH hR hs
  obtain ⟨H', hadvances, hend⟩ := h s hH hR hs
  refine ⟨H', hadvances, ?_⟩
  rw [Eval.bind_apply]
  cases hrun : body s with
  | ok b s' =>
      rw [hrun] at hend
      exact ⟨hend.1, himp H' b hend.2.1, hend.2.2⟩
  | error stop s' =>
      rw [hrun] at hend
      exact hend

theorem bind {mid : Heap → β → Prop} {first : Eval β} {log : Log} {next : β → Eval α}
    {nextLog : β → Log} (hfirst : Safely R H mid first log)
    (hnext : ∀ H' b, Heap.Le R H H' → mid H' b → Safely R H' post (next b) (nextLog b)) :
    Safely R H post (first >>= next) (log.andThen first nextLog) := by
  intro s hH hR hs
  obtain ⟨H₁, hadvances, hend⟩ := hfirst s hH hR hs
  rw [Eval.bind_apply, Log.andThen]
  cases hrun : first s with
  | error stop s₁ =>
      rw [hrun] at hend
      exact ⟨H₁, hadvances.trans (.refl hadvances.sound), hend⟩
  | ok b s₁ =>
      rw [hrun] at hend
      obtain ⟨H₂, hadvances', hend'⟩ :=
        hnext H₁ b hadvances.le hend.2.1 s₁ hadvances.sound (hadvances.running hR) hend.1
      refine ⟨H₂, hadvances.trans hadvances', ?_⟩
      dsimp only
      cases hrun' : next b s₁ with
      | error stop s₂ =>
          rw [hrun'] at hend'
          exact hend'
      | ok a s₂ =>
          rw [hrun'] at hend'
          refine ⟨hend'.1, hend'.2.1, fun x stop hmem => ?_⟩
          exact (List.mem_append.1 hmem).elim (hend.2.2 x stop) (hend'.2.2 x stop)

theorem within {body : Eval α} {log : Log} (h : Safely R H post body log) (limit : Option Nat)
    (span : Span) :
    Safely R H post (Eval.within limit span body) fun s =>
      match s.depth.enter limit with
      | .error _ => []
      | .ok depth => log { s with depth } := by
  intro s hH hR hs
  beta_reduce
  unfold Eval.within
  cases s.depth.enter limit with
  | error n => exact ⟨H, .refl hH, hs⟩
  | ok depth =>
      obtain ⟨H', hadvances, hend⟩ := h { s with depth } hH hR hs
      refine ⟨H', hadvances, ?_⟩
      dsimp only
      cases hrun : body { s with depth } with
      | ok a s' =>
          rw [hrun] at hend
          exact hend
      | error stop s' =>
          rw [hrun] at hend
          exact hend

end Safely

/-! ## Evaluations -/

/-- Evaluating with this much fuel is safe. -/
def EvalSafe (n : Nat) : Prop :=
  ∀ {R : List Nat} {H : Heap} {ρ : Env} (setting : Setting) (e : Expr), H.Admits R ρ.Mentions →
    Safely R H (fun H' v => H'.Admits R v.Mentions) (eval n setting ρ e) (evalLog n setting ρ e)

/-- Comparing with this much fuel is safe. -/
def CompareSafe (n m : Nat) : Prop :=
  ∀ {R : List Nat} {H : Heap} {todo : List Comparison}, (∀ c ∈ todo, H.Admits R c.Mentions) →
    Safely R H (fun _ _ => True) (compareAll (eval n) m todo)
      (compareLog (eval n) (evalLog n) m todo)

section

variable {n m : Nat} {R : List Nat} {H : Heap}

theorem freshTag_safe : Safely R H (fun H' _ => H' = H) Eval.freshTag fun _ => [] :=
  .of_step fun s hs => ⟨_, { s with store := s.store.freshTag.2 }, rfl, hs.of_cells rfl, rfl⟩

theorem extend_safe {ρ : Env} (hρ : H.Admits R ρ.Mentions) {bindings bindings' : List (Name × Thunk)}
    (hbindings : List.Forall₂ (fun b _ => H.Admits R b.2.Mentions) bindings bindings') :
    Safely R H (fun H' a => H'.Admits R a.Mentions) (Eval.extend ρ bindings) fun _ => [] := by
  refine .of_step fun s hs => ⟨_, { s with store := (s.store.extend ρ bindings).2 }, rfl,
    hs.of_cells (s.store.extend_cells ρ bindings), fun x p hx => ?_⟩
  rcases hx.of_extend with hx | ⟨b, hb, hx⟩
  · exact hρ x p hx
  · obtain ⟨i, hi, rfl⟩ := List.getElem_of_mem hb
    exact hbindings.get hi (hbindings.length_eq ▸ hi) x p hx

theorem suspension_safe (hn : EvalSafe n) {q : Suspension} (hq : H.Admits R q.Mentions) :
    Safely R H (fun H' v => H'.Admits R v.Mentions) (q.run (eval n)) (q.log (evalLog n)) := by
  obtain ⟨setting, ρ, e⟩ := q
  unfold Suspension.run Suspension.log
  refine .bind (.count _) fun H' _ _ hsame => ?_
  subst hsame
  exact hn setting e (Heap.admits_suspension_iff.1 hq)

/-- A cell that is forced is not running.  Its suspension does not lead to it, so it is not reached
again while the suspension is evaluated, and has no result when that has ended. -/
theorem forceCell_safe (hn : EvalSafe n) {address : Nat} {q : Suspension}
    (hq : H.Knows address q) (hapart : H.Apart R address) :
    Safely R H (fun H' v => H'.Admits R v.Mentions) (force (eval n) (.byNeed address q))
      (forceLog (eval n) (evalLog n) (.byNeed address q)) := by
  intro s hH hR hs
  have hrunning : address ∉ R := fun hmem => hapart address hmem .refl
  cases hkept : s.store.kept? address with
  | some v =>
      have hv : H.kept address = some v := by rw [← hs.kept, hkept]
      rw [forceLog_of_kept _ _ hkept, Eval.force_of_kept hkept]
      exact ⟨H, .read hH hrunning hv, hs, hH.admits_kept hv hapart, by simp⟩
  | none =>
      have hpending : H.kept address = none := by rw [← hs.kept, hkept]
      obtain ⟨H₁, hadvances, hend⟩ := suspension_safe hn (hH.admits_suspended hq hapart) s hH
        (List.forall_mem_cons.2 ⟨⟨hq.lt, hpending⟩, hR⟩) hs
      -- The cell was running meanwhile, so nothing has happened to it.
      have hpending' : H₁.kept address = none := by
        rw [hadvances.kept_eq List.mem_cons_self, hpending]
      rw [forceLog_of_pending _ _ hkept, Eval.force_of_pending hkept, Eval.bind_apply]
      cases hrun : q.run (eval n) s with
      | error stop s₁ =>
          rw [hrun] at hend
          refine ⟨H₁, hadvances.bracket hq hrunning (.refl R H₁) hadvances.sound
            (fun _ _ => rfl) rfl nofun ?_, hend⟩
          rw [hpending, hpending']
          exact .stop .nil
      | ok v s₁ =>
          rw [hrun] at hend
          obtain ⟨hs₁, hv, hstops⟩ := hend
          have hkept₁ : s₁.store.kept? address = none := by rw [hs₁.kept, hpending']
          have hknows : H₁.Knows address q := hadvances.le.knows hq
          have hv' : H₁.Admits R v.Mentions := fun x p hx =>
            ⟨(hv x p hx).1, fun r hr => (hv x p hx).2 r (List.mem_cons_of_mem address hr)⟩
          refine ⟨H₁.keep address v, ?_, ?_⟩
          · simp only [arrival, hkept₁]
            refine hadvances.bracket hq hrunning (Heap.le_keep hv')
              (hadvances.sound.keep hknows hv) (fun _ hne => Heap.kept_keep_of_ne hne) rfl nofun ?_
            rw [hpending, Heap.kept_keep_self]
            exact .settle .nil
          · simp only [arrival, hkept₁, Eval.keep_apply]
            refine ⟨hs₁.keep hknows v, hv'.mono (Heap.le_keep hv'), fun x stop hmem => ?_⟩
            simp only [List.mem_cons, List.mem_append, reduceCtorEq, false_or, List.not_mem_nil,
              or_false] at hmem
            exact hstops x stop hmem

theorem force_safe (hn : EvalSafe n) {x : Thunk} (hx : H.Admits R x.Mentions) :
    Safely R H (fun H' v => H'.Admits R v.Mentions) (force (eval n) x)
      (forceLog (eval n) (evalLog n) x) := by
  cases x with
  | ready v => exact .pure (Heap.admits_ready_iff.1 hx)
  | byName q => exact suspension_safe hn (Heap.admits_byName_iff.1 hx)
  | byNeed address q =>
      obtain ⟨hq, hapart⟩ := hx address q (by simp only [Thunk.Mentions, and_self])
      exact forceCell_safe hn hq hapart

theorem delay_safe (hn : EvalSafe n) {ρ : Env} (hρ : H.Admits R ρ.Mentions) (d : Discipline)
    (setting : Setting) (e : Expr) :
    Safely R H (fun H' x => H'.Admits R x.Mentions) (delay (eval n) d setting ρ e)
      (delayLog (evalLog n) d setting ρ e) := by
  cases d with
  | value => exact .map (hn setting e hρ) fun H' v hv => Heap.admits_ready_iff.2 hv
  | name => exact .pure (Heap.admits_byName_iff.2 (Heap.admits_suspension_iff.2 hρ))
  | need =>
      intro s hH hR hs
      have hq : H.Admits R (Suspension.mk setting ρ e).Mentions := Heap.admits_suspension_iff.2 hρ
      refine ⟨H.allocate ⟨setting, ρ, e⟩, .of_le (Heap.le_allocate hq) (hH.allocate hq) rfl,
        hs.allocate _, fun x p hx => ?_, fun _ _ => List.not_mem_nil⟩
      simp only [Thunk.Mentions] at hx
      obtain ⟨rfl, rfl⟩ := hx
      rw [← hs.size]
      exact ⟨H.knows_allocate_self _, hH.apart_new hq fun r hr => (hR r hr).1⟩

/-- Following a plan is safe if the plan mentions only what is apart from the running cells. -/
theorem run_safe (hn : EvalSafe n) (hm : CompareSafe n m) {setting : Setting} {α β : Type}
    {post : (apartKinship setting R).World → α → β → Prop} {W : (apartKinship setting R).World}
    {p : Plan α} {q : Plan β} (hrel : Plan.Related (apartKinship setting R) post W p q) :
    Safely R W (fun H' a => ∃ b, post H' a b) (p.run (eval n) m)
      (p.log (eval n) (evalLog n) m (compareLog (eval n) (evalLog n) m)) := by
  -- The plan is related to itself, and each step of that says which cells its data mention.
  induction hrel with
  | done h => exact .pure ⟨_, h⟩
  | fail => exact .throw _
  | count _ ih =>
      simp only [Plan.run, Plan.log]
      refine .bind (.count _) fun H' _ _ hsame => ?_
      subst hsame
      exact ih
  | eval henv _ ih =>
      exact .bind (hn setting _ henv.2) fun H' v hle hv => ih H' hle v v ⟨rfl, hv⟩
  | force hthunk _ ih =>
      exact .bind (force_safe hn hthunk.2) fun H' v hle hv => ih H' hle v v ⟨rfl, hv⟩
  | delay _ henv _ ih =>
      exact .bind (delay_safe hn henv.2 _ setting _) fun H' x hle hx => ih H' hle x x ⟨rfl, hx⟩
  | cell hhead htail _ _ ih =>
      simp only [Plan.run, Plan.log]
      refine .bind freshTag_safe fun H' tag hle hsame => ?_
      subst hsame
      exact ih _ hle _ _ ⟨rfl, Heap.admits_cons_iff.2 ⟨hhead.2, htail.2⟩⟩
  | closure henv _ ih =>
      simp only [Plan.run, Plan.log]
      refine .bind freshTag_safe fun H' tag hle hsame => ?_
      subst hsame
      exact ih _ hle _ _ ⟨rfl, Heap.admits_closure_iff.2 henv.2⟩
  | extend henv hbs _ ih =>
      simp only [Plan.run, Plan.log]
      refine .bind (extend_safe henv.2 (hbs.imp fun _ _ hb => hb.2.2)) fun H' a hle hsame => ?_
      exact ih H' hle a a ⟨rfl, hsame⟩
  | compare htodo _ ih =>
      exact .bind (hm htodo.2) fun H' b hle _ => ih H' hle b

theorem comparable_self (setting : Setting) {c : Comparison} (hc : H.Admits R c.Mentions) :
    (apartKinship setting R).Comparable H c c := by
  cases c with
  | values a b =>
      obtain ⟨ha, hb⟩ := Heap.admits_or_iff.1 hc
      exact .values ⟨rfl, ha⟩ ⟨rfl, hb⟩
  | envs a b =>
      obtain ⟨ha, hb⟩ := Heap.admits_or_iff.1 hc
      exact .envs ⟨rfl, ha⟩ ⟨rfl, hb⟩
  | tails y z =>
      obtain ⟨hy, hz⟩ := Heap.admits_or_iff.1 hc
      -- Any list cells with these second parts will do.
      have hcell : ∀ tail : Thunk, H.Admits R tail.Mentions →
          H.Admits R (Value.cons 0 (.ready .nil) tail).Mentions := fun tail htail =>
        Heap.admits_cons_iff.2 ⟨Heap.admits_ready_iff.2 (H.admits_of_isAtom R trivial), htail⟩
      exact .tails ⟨rfl, hcell y hy⟩ ⟨rfl, hcell z hz⟩

theorem compare_safe (hn : EvalSafe n) (m : Nat) : CompareSafe n m := by
  induction m with
  | zero => exact fun _ => .throw _
  | succ m ih =>
      intro R H todo htodo
      rw [compareAll_succ, compareLog]
      cases todo with
      | nil => exact .pure trivial
      | cons c todo =>
          rw [List.forall_mem_cons] at htodo
          let K := apartKinship ⟨⟨.value, .value⟩, none⟩ R
          have hrel := K.step_related (W := H) ⟨rfl, htodo.2⟩ (comparable_self _ htodo.1)
            (.inl rfl : Comparison.identical c = Comparison.identical c ∨ _)
          exact (run_safe hn ih hrel).mono fun _ _ _ => trivial

/-- Evaluating is safe. -/
theorem eval_safe (n : Nat) : EvalSafe n := by
  induction n with
  | zero => exact fun _ _ _ => .throw _
  | succ n ih =>
      intro R H ρ setting e hρ
      have hrel := (apartKinship setting R).plan_related (W := H) ⟨rfl, hρ⟩ e
      rw [eval_succ]
      refine Safely.within ?_ setting.maxDepth e.span
      exact (run_safe ih (compare_safe ih n) (.count hrel)).mono fun _ _ ⟨_, h⟩ => h.2

end

end PolicyEval
