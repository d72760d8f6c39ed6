import PolicyEval.Proofs.Eval.Kinship
import PolicyEval.Proofs.Eval.Outcome

/-!
# Plans in parts

A plan can be put together from two, and it can be taken apart: what is left of it once its first
requests are met is a plan again.  A run that stops does so at one request, so it is a run of the
first part, which ends well, and a request that stops.

* `Plan.bind` — one plan after another.
* `Plan.ahead` — meets some requests and yields the plan that is left.
* `Plan.Breaks` — the next request of a plan stops.
* `Plan.stopsAfter_of_run` — a run that stops has met some requests, and the next one stops.
-/

namespace PolicyEval

namespace Plan

variable {α β : Type}

/-- One plan after another. -/
def bind (g : α → Plan β) : Plan α → Plan β
  | done a => g a
  | fail cause => .fail cause
  | count step next => .count step (next.bind g)
  | eval setting ρ e next => .eval setting ρ e fun v => (next v).bind g
  | force x next => .force x fun v => (next v).bind g
  | delay d setting ρ e next => .delay d setting ρ e fun x => (next x).bind g
  | cell x y next => .cell x y fun v => (next v).bind g
  | closure lambda ρ next => .closure lambda ρ fun v => (next v).bind g
  | extend ρ bindings next => .extend ρ bindings fun inner => (next inner).bind g
  | compare todo next => .compare todo fun t => (next t).bind g

/-- Meets the given number of requests, counts included, and yields the plan that is left. -/
def ahead : Nat → Plan α → Plan (Plan α)
  | 0, p => .done p
  | _ + 1, done a => .done (.done a)
  | _ + 1, fail cause => .fail cause
  | j + 1, count step next => .count step (next.ahead j)
  | j + 1, eval setting ρ e next => .eval setting ρ e fun v => (next v).ahead j
  | j + 1, force x next => .force x fun v => (next v).ahead j
  | j + 1, delay d setting ρ e next => .delay d setting ρ e fun x => (next x).ahead j
  | j + 1, cell x y next => .cell x y fun v => (next v).ahead j
  | j + 1, closure lambda ρ next => .closure lambda ρ fun v => (next v).ahead j
  | j + 1, extend ρ bindings next => .extend ρ bindings fun inner => (next inner).ahead j
  | j + 1, compare todo next => .compare todo fun t => (next t).ahead j

section

variable (ev : Evaluator) (loop : Nat)

theorem run_bind (g : α → Plan β) (p : Plan α) :
    (p.bind g).run ev loop = p.run ev loop >>= fun a => (g a).run ev loop := by
  induction p with
  | done a => simp only [bind, run, pure_bind]
  | fail cause => rfl
  | _ => simp only [bind, run, bind_assoc, *]

/-- Following a plan is following its first part and then what is left. -/
theorem run_ahead (j : Nat) (p : Plan α) :
    p.run ev loop = (p.ahead j).run ev loop >>= fun rest => rest.run ev loop := by
  induction j generalizing p with
  | zero => simp only [ahead, run, pure_bind]
  | succ j ih =>
      cases p with
      | done a => simp only [ahead, run, pure_bind]
      | fail cause => rfl
      | _ => simp only [ahead, run, bind_assoc, ← ih]

end

/-! ## Related plans -/

section

variable {K : Kinship} {W : K.World} {γ δ : Type} {post : K.World → α → β → Prop}

theorem Related.bind {post' : K.World → γ → δ → Prop} {p : Plan α} {q : Plan β} {g : α → Plan γ}
    {g' : β → Plan δ} (h : Related K post W p q)
    (hnext : ∀ W', K.le W W' → ∀ a b, post W' a b → Related K post' W' (g a) (g' b)) :
    Related K post' W (p.bind g) (q.bind g') := by
  -- Worlds only grow, so what the first plan ends in lies above all of its requests.
  induction h with
  | done h => exact hnext _ (K.refl _) _ _ h
  | fail h =>
      refine .fail fun hstrict => ?_
      rw [h hstrict]
      rfl
  | count _ ih => exact .count (ih hnext)
  | eval henv _ ih =>
      exact .eval henv fun W' hW v w hv => ih W' hW v w hv fun W'' hW' => hnext W'' (K.trans hW hW')
  | force hthunk _ ih =>
      exact .force hthunk fun W' hW v w hv =>
        ih W' hW v w hv fun W'' hW' => hnext W'' (K.trans hW hW')
  | delay haxis henv _ ih =>
      exact .delay haxis henv fun W' hW x y hx =>
        ih W' hW x y hx fun W'' hW' => hnext W'' (K.trans hW hW')
  | cell hhead htail hlist _ ih =>
      exact .cell hhead htail hlist fun W' hW v w hv =>
        ih W' hW v w hv fun W'' hW' => hnext W'' (K.trans hW hW')
  | closure henv _ ih =>
      exact .closure henv fun W' hW v w hv =>
        ih W' hW v w hv fun W'' hW' => hnext W'' (K.trans hW hW')
  | extend henv hbs _ ih =>
      exact .extend henv hbs fun W' hW a b hab =>
        ih W' hW a b hab fun W'' hW' => hnext W'' (K.trans hW hW')
  | compare htodo _ ih =>
      exact .compare htodo fun W' hW t => ih W' hW t fun W'' hW' => hnext W'' (K.trans hW hW')

/-- The first parts of related plans are related, and so is what they leave. -/
theorem Related.ahead {p : Plan α} {q : Plan β} (h : Related K post W p q) (j : Nat) :
    Related K (Related K post) W (p.ahead j) (q.ahead j) := by
  induction j generalizing W p q with
  | zero => exact .done h
  | succ j ih =>
      cases h with
      | done h => exact .done (.done h)
      | fail h =>
          refine .fail fun hstrict => ?_
          rw [h hstrict]
          rfl
      | count h => exact .count (ih h)
      | eval henv hnext => exact .eval henv fun W' hW v w hv => ih (hnext W' hW v w hv)
      | force hthunk hnext => exact .force hthunk fun W' hW v w hv => ih (hnext W' hW v w hv)
      | delay haxis henv hnext =>
          exact .delay haxis henv fun W' hW x y hx => ih (hnext W' hW x y hx)
      | cell hhead htail hlist hnext =>
          exact .cell hhead htail hlist fun W' hW v w hv => ih (hnext W' hW v w hv)
      | closure henv hnext => exact .closure henv fun W' hW v w hv => ih (hnext W' hW v w hv)
      | extend henv hbs hnext =>
          exact .extend henv hbs fun W' hW a b hab => ih (hnext W' hW a b hab)
      | compare htodo hnext => exact .compare htodo fun W' hW t => ih (hnext W' hW t)

end

/-- In a strict kinship, what is related to a request for a thunk is such a request, on the same axis
of the policies. -/
theorem Related.delay_inv_right {d : Discipline} {setting : Setting} {ρ' : Env} {e : Expr}
    {next' : Thunk → Plan β} {p : Plan α} (hstrict : K.strict)
    (h : Related K post W p (.delay d setting ρ' e next')) :
    ∃ (axis : Policy → Discipline) (ρ : Env) (next : Thunk → Plan α),
      d = axis K.right.policy ∧ setting = K.right ∧
        p = .delay (axis K.left.policy) K.left ρ e next ∧ K.env W ρ ρ' := by
  generalize hq : Plan.delay d setting ρ' e next' = q at h
  cases h with
  | fail hcause => cases hq.trans (hcause hstrict)
  | @delay _ axis ρ ρ₁ _ next _ haxis henv hnext =>
      obtain ⟨rfl, rfl, rfl, rfl, -⟩ := Plan.delay.inj hq
      exact ⟨axis, ρ, next, rfl, rfl, rfl, henv⟩
  | done | count | eval | force | cell | closure | extend | compare => cases hq

/-! ## Where a run stops -/

/-- The next request of the plan stops. -/
inductive Breaks (ev : Evaluator) (loop : Nat) (s : State) (stop : Stop) (s' : State) :
    Plan α → Prop
  | fail {cause : FaultCause} (hstop : stop = .fault ⟨cause, none⟩) (hs : s' = s) :
      Breaks ev loop s stop s' (.fail cause)
  | eval {setting : Setting} {ρ : Env} {e : Expr} {next : Value → Plan α}
      (h : ev setting ρ e s = .error stop s') : Breaks ev loop s stop s' (.eval setting ρ e next)
  | force {x : Thunk} {next : Value → Plan α} (h : PolicyEval.force ev x s = .error stop s') :
      Breaks ev loop s stop s' (.force x next)
  | delay {setting : Setting} {ρ : Env} {e : Expr} {next : Thunk → Plan α}
      (h : ev setting ρ e s = .error stop s') :
      Breaks ev loop s stop s' (.delay .value setting ρ e next)
  | compare {todo : List Comparison} {next : Bool → Plan α}
      (h : compareAll ev loop todo s = .error stop s') :
      Breaks ev loop s stop s' (.compare todo next)

variable {ev : Evaluator} {loop : Nat}

theorem delay_eq_error {d : Discipline} {setting : Setting} {ρ : Env} {e : Expr} {s s' : State}
    {stop : Stop} (h : PolicyEval.delay ev d setting ρ e s = .error stop s') :
    d = .value ∧ ev setting ρ e s = .error stop s' := by
  cases d with
  | name | need => cases h
  | value =>
      refine ⟨rfl, ?_⟩
      cases hrun : ev setting ρ e s with
      | ok v s₁ =>
          have hok : PolicyEval.delay ev .value setting ρ e s = .ok (.ready v) s₁ :=
            Eval.bind_of_ok hrun
          rw [hok] at h
          cases h
      | error stop' s₁ =>
          have hstop : PolicyEval.delay ev .value setting ρ e s = .error stop' s₁ :=
            Eval.bind_of_error hrun
          rw [hstop] at h
          cases h
          rfl

/-- The run meets some requests, and the next one stops. -/
def StopsAfter (ev : Evaluator) (loop : Nat) (s : State) (stop : Stop) (s' : State) (p : Plan α) :
    Prop :=
  ∃ j rest s₁, (p.ahead j).run ev loop s = .ok rest s₁ ∧ rest.Breaks ev loop s₁ stop s'

/-- A request that stops is where the run stops; after one that is met, the rest of the plan
stops. -/
theorem stops_or_met {γ : Type} {first : Eval γ} {next : γ → Plan α} {s s' : State} {stop : Stop}
    (h : (first >>= fun c => (next c).run ev loop) s = .error stop s') :
    first s = .error stop s' ∨
      ∃ c s₁, first s = .ok c s₁ ∧ (next c).run ev loop s₁ = .error stop s' := by
  cases hfirst : first s with
  | error stop' s₁ =>
      rw [Eval.bind_of_error hfirst] at h
      cases h
      exact .inl rfl
  | ok c s₁ =>
      rw [Eval.bind_of_ok hfirst] at h
      exact .inr ⟨c, s₁, rfl, h⟩

/-- Where a plan goes on after a request that is met, its run stops as that of the rest does. -/
theorem StopsAfter.met {γ : Type} {first : Eval γ} {next : γ → Plan α} {p : Plan α}
    {s s₁ s' : State} {stop : Stop} {c : γ} (hrest : (next c).StopsAfter ev loop s₁ stop s')
    (hfirst : first s = .ok c s₁)
    (hp : ∀ j, (p.ahead (j + 1)).run ev loop = first >>= fun c => ((next c).ahead j).run ev loop) :
    p.StopsAfter ev loop s stop s' := by
  obtain ⟨j, rest, s₂, hrun, hbreaks⟩ := hrest
  refine ⟨j + 1, rest, s₂, ?_, hbreaks⟩
  rw [hp, Eval.bind_of_ok hfirst, hrun]

/-- A run that stops has met some requests, and the next one stops. -/
theorem stopsAfter_of_run {p : Plan α} {s s' : State} {stop : Stop}
    (h : p.run ev loop s = .error stop s') : p.StopsAfter ev loop s stop s' := by
  induction p generalizing s with
  | done a => cases h
  | fail cause =>
      cases h
      exact ⟨0, _, _, rfl, .fail rfl rfl⟩
  | count step next ih =>
      obtain ⟨j, rest, s₁, hrest, hbreaks⟩ := ih h
      exact ⟨j + 1, rest, s₁, hrest, hbreaks⟩
  | eval setting ρ e next ih =>
      rcases stops_or_met h with hstop | ⟨v, s₁, hmet, hrest⟩
      · exact ⟨0, _, s, rfl, .eval hstop⟩
      · exact (ih v hrest).met hmet fun _ => rfl
  | force x next ih =>
      rcases stops_or_met h with hstop | ⟨v, s₁, hmet, hrest⟩
      · exact ⟨0, _, s, rfl, .force hstop⟩
      · exact (ih v hrest).met hmet fun _ => rfl
  | delay d setting ρ e next ih =>
      rcases stops_or_met h with hstop | ⟨x, s₁, hmet, hrest⟩
      · obtain ⟨rfl, heval⟩ := delay_eq_error hstop
        exact ⟨0, _, s, rfl, .delay heval⟩
      · exact (ih x hrest).met hmet fun _ => rfl
  | compare todo next ih =>
      rcases stops_or_met h with hstop | ⟨t, s₁, hmet, hrest⟩
      · exact ⟨0, _, s, rfl, .compare hstop⟩
      · exact (ih t hrest).met hmet fun _ => rfl
  -- What only makes something never stops, so it belongs to what was met.
  | cell x y next ih =>
      obtain ⟨j, rest, s₁, hrest, hbreaks⟩ := ih _ h
      exact ⟨j + 1, rest, s₁, hrest, hbreaks⟩
  | closure lambda ρ next ih =>
      obtain ⟨j, rest, s₁, hrest, hbreaks⟩ := ih _ h
      exact ⟨j + 1, rest, s₁, hrest, hbreaks⟩
  | extend ρ bindings next ih =>
      obtain ⟨j, rest, s₁, hrest, hbreaks⟩ := ih _ h
      exact ⟨j + 1, rest, s₁, hrest, hbreaks⟩

end Plan

end PolicyEval
