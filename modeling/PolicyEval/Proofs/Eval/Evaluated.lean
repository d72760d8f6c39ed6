import PolicyEval.Proofs.Eval.Realm
import PolicyEval.Proofs.Policy.Lifting

/-!
# Comparing evaluated data

Where every part of a list and every binding is a known value, comparing needs no evaluation.  Each
step looks at the outermost layers of two things and leaves fewer parts to be compared, so comparing
ends, and it changes nothing.

* `Value.IsEvaluated`, `Thunk.IsEvaluated`, `Env.IsEvaluated` — data without suspensions.
* `Value.Belongs.isEvaluated` — the data of a realm under the eager policy are evaluated.
* `Comparison.remainder` — what one step leaves to be compared.
* `compareAll_cons_of_isEvaluated` — one step of comparing evaluated data.
* `compareAll_of_isEvaluated` — comparing evaluated data ends, without an effect.
-/

namespace PolicyEval

mutual
/-- Every part of the value is known, and second parts of list cells are lists. -/
def Value.IsEvaluated : Value → Prop
  | .int _ | .bool _ | .prim _ | .nil => True
  | .closure _ _ ρ => ρ.IsEvaluated
  | .cons _ x y => x.IsEvaluated ∧ y.IsEvaluated ∧ ∃ v, y = .ready v ∧ v.isList = true

/-- The thunk is a known value, and so are its parts. -/
def Thunk.IsEvaluated : Thunk → Prop
  | .ready v => v.IsEvaluated
  | .byName _ | .byNeed _ _ => False

/-- Every binding is a known value, and so are its parts. -/
def Env.IsEvaluated : Env → Prop
  | .empty => True
  | .frame _ _ x rest => x.IsEvaluated ∧ rest.IsEvaluated
end

/-! ## The eager policy -/

/-- Under the eager policy every thunk is a value. -/
theorem Thunk.Belongs.exists_ready {R : Realm} (heager : R.setting.policy = .eager) {x : Thunk}
    (h : x.Belongs R) : ∃ v, x = .ready v ∧ v.Belongs R := by
  have hdelays : ∀ {d : Discipline}, R.Delays d → d = .value := by
    intro d hd
    unfold Realm.Delays at hd
    rw [heager] at hd
    exact hd.elim id id
  cases x with
  | ready v => exact ⟨v, rfl, by simpa only [Thunk.Belongs] using h⟩
  | byName q =>
      simp only [Thunk.Belongs] at h
      cases hdelays h.1
  | byNeed address q =>
      simp only [Thunk.Belongs] at h
      cases hdelays h.1

mutual
theorem Value.Belongs.isEvaluated {R : Realm} (heager : R.setting.policy = .eager) :
    {v : Value} → v.Belongs R → v.IsEvaluated
  | .int _, _ | .bool _, _ | .prim _, _ | .nil, _ => by simp only [Value.IsEvaluated]
  | .closure _ _ ρ, h => by
      simp only [Value.Belongs] at h
      simpa only [Value.IsEvaluated] using h.2.isEvaluated heager
  | .cons _ x y, h => by
      simp only [Value.Belongs] at h
      simp only [Value.IsEvaluated]
      obtain ⟨v, rfl, -⟩ := h.2.1.exists_ready heager
      exact ⟨h.1.isEvaluated heager, h.2.1.isEvaluated heager, v, rfl, h.2.2⟩

theorem Thunk.Belongs.isEvaluated {R : Realm} (heager : R.setting.policy = .eager) :
    {x : Thunk} → x.Belongs R → x.IsEvaluated
  | .ready v, h => by
      simp only [Thunk.Belongs] at h
      simpa only [Thunk.IsEvaluated] using h.isEvaluated heager
  | .byName q, h | .byNeed address q, h => by
      obtain ⟨v, ⟨⟩, -⟩ := h.exists_ready heager

theorem Env.Belongs.isEvaluated {R : Realm} (heager : R.setting.policy = .eager) :
    {ρ : Env} → ρ.Belongs R → ρ.IsEvaluated
  | .empty, _ => by simp only [Env.IsEvaluated]
  | .frame _ _ x rest, h => by
      simp only [Env.Belongs] at h
      simp only [Env.IsEvaluated]
      exact ⟨h.2.1.isEvaluated heager, h.2.2.isEvaluated heager⟩
end

/-! ## Comparisons of evaluated data -/

/-- Both sides of the comparison are evaluated. -/
def Comparison.IsEvaluated : Comparison → Prop
  | .values a b => a.IsEvaluated ∧ b.IsEvaluated
  | .tails x y => (∃ v, x = .ready v ∧ v.isList = true ∧ v.IsEvaluated) ∧
      ∃ w, y = .ready w ∧ w.isList = true ∧ w.IsEvaluated
  | .envs a b => a.IsEvaluated ∧ b.IsEvaluated

theorem Thunk.IsEvaluated.exists_ready {x : Thunk} (h : x.IsEvaluated) :
    ∃ v, x = .ready v ∧ v.IsEvaluated := by
  cases x with
  | ready v => exact ⟨v, rfl, by simpa only [Thunk.IsEvaluated] using h⟩
  | byName | byNeed => simp only [Thunk.IsEvaluated] at h

theorem Comparison.Belongs.isEvaluated {R : Realm} (heager : R.setting.policy = .eager)
    {c : Comparison} (h : c.Belongs R) : c.IsEvaluated := by
  cases c with
  | values a b => exact ⟨h.1.isEvaluated heager, h.2.isEvaluated heager⟩
  | envs a b => exact ⟨h.1.isEvaluated heager, h.2.isEvaluated heager⟩
  | tails x y =>
      obtain ⟨⟨hx, hlist⟩, hy, hlist'⟩ := h
      obtain ⟨v, rfl, hv⟩ := hx.exists_ready heager
      obtain ⟨w, rfl, hw⟩ := hy.exists_ready heager
      exact ⟨⟨v, rfl, hlist, hv.isEvaluated heager⟩, w, rfl, hlist', hw.isEvaluated heager⟩

/-- All parts that a meeting leaves to be compared are evaluated. -/
def Meeting.IsEvaluated : Meeting → Prop
  | .equal | .unequal => True
  | .envs a b => a.IsEvaluated ∧ b.IsEvaluated
  | .parts x y next => x.IsEvaluated ∧ y.IsEvaluated ∧ next.IsEvaluated

theorem Value.meet_isEvaluated {a b : Value} (ha : a.IsEvaluated) (hb : b.IsEvaluated) :
    (a.meet b).IsEvaluated := by
  cases a <;> cases b <;> simp only [Value.IsEvaluated, Value.meet] at ha hb ⊢ <;>
    grind [Meeting.IsEvaluated, Comparison.IsEvaluated, Thunk.IsEvaluated]

theorem Env.meet_isEvaluated {a b : Env} (ha : a.IsEvaluated) (hb : b.IsEvaluated) :
    (a.meet b).IsEvaluated := by
  cases a <;> cases b <;> simp only [Env.IsEvaluated, Env.meet] at ha hb ⊢ <;>
    grind [Meeting.IsEvaluated, Comparison.IsEvaluated]

/-! ## One step -/

/-- The comparisons that a meeting of evaluated data leaves; `none` if the data are not equal. -/
def Meeting.remainder : Meeting → Option (List Comparison)
  | .equal => some []
  | .envs a b => some [.envs a b]
  | .parts (.ready v) (.ready w) next => some [.values v w, next]
  | _ => none

/-- The comparisons that a step of comparing evaluated data leaves; `none` if they are not equal. -/
def Comparison.remainder (c : Comparison) : Option (List Comparison) :=
  if c.identical then some []
  else
    match c with
    | .values a b => (a.meet b).remainder
    | .tails (.ready v) (.ready w) => some [.values v w]
    | .tails _ _ => none
    | .envs a b => (a.meet b).remainder

theorem Meeting.proceed_of_isEvaluated {m : Meeting} (h : m.IsEvaluated) (ev : Evaluator)
    (fuel : Nat) (todo : List Comparison) :
    m.proceed ev fuel todo =
      match m.remainder with
      | some rest => compareAll ev fuel (rest ++ todo)
      | none => pure false := by
  cases m with
  | equal | unequal | envs => rfl
  | parts x y next =>
      obtain ⟨v, rfl, -⟩ := h.1.exists_ready
      obtain ⟨w, rfl, -⟩ := h.2.1.exists_ready
      simp only [proceed, remainder, force, pure_bind, List.cons_append, List.nil_append]

/-- One step of comparing evaluated data needs no evaluation. -/
theorem compareAll_cons_of_isEvaluated {c : Comparison} (hc : c.IsEvaluated) (ev : Evaluator)
    (fuel : Nat) (todo : List Comparison) :
    compareAll ev (fuel + 1) (c :: todo) =
      match c.remainder with
      | some rest => compareAll ev fuel (rest ++ todo)
      | none => pure false := by
  unfold Comparison.remainder
  cases c with
  | values a b =>
      rw [compareAll_values]
      by_cases hsame : a.identical b = true
      · simp only [Comparison.identical, hsame, if_true, List.nil_append]
      · simp only [Comparison.identical, hsame, Bool.false_eq_true, if_false]
        exact Meeting.proceed_of_isEvaluated (Value.meet_isEvaluated hc.1 hc.2) ev fuel todo
  | envs a b =>
      rw [compareAll_envs]
      by_cases hsame : a.same b = true
      · simp only [Comparison.identical, hsame, if_true, List.nil_append]
      · simp only [Comparison.identical, hsame, Bool.false_eq_true, if_false]
        exact Meeting.proceed_of_isEvaluated (Env.meet_isEvaluated hc.1 hc.2) ev fuel todo
  | tails x y =>
      obtain ⟨⟨v, rfl, hlist, -⟩, w, rfl, hlist', -⟩ := hc
      rw [compareAll_tails]
      simp only [forceTail, force, pure_bind, asTail, hlist, hlist', if_true, Eval.lift,
        Comparison.identical, Bool.false_eq_true, if_false, List.cons_append, List.nil_append]

section

variable {c : Comparison} {rest : List Comparison}

theorem Meeting.IsEvaluated.remainder {m : Meeting} (h : m.IsEvaluated)
    (hrest : m.remainder = some rest) :
    (∀ d ∈ rest, d.IsEvaluated) ∧ totalWeight rest ≤ m.weight := by
  cases m with
  | unequal => cases hrest
  | equal =>
      cases hrest
      exact ⟨nofun, Nat.le_refl _⟩
  | envs a b =>
      cases hrest
      exact ⟨by simpa [Comparison.IsEvaluated, IsEvaluated] using h,
        by simp [Meeting.weight, Comparison.weight]⟩
  | parts x y next =>
      obtain ⟨v, rfl, hv⟩ := h.1.exists_ready
      obtain ⟨w, rfl, hw⟩ := h.2.1.exists_ready
      cases hrest
      refine ⟨by simpa [Comparison.IsEvaluated] using ⟨⟨hv, hw⟩, h.2.2⟩, ?_⟩
      simp only [totalWeight, Meeting.weight, Comparison.weight, Thunk.weight]
      omega

/-- What a step leaves is evaluated and has fewer parts. -/
theorem Comparison.IsEvaluated.remainder (hc : c.IsEvaluated) (hrest : c.remainder = some rest) :
    (∀ d ∈ rest, d.IsEvaluated) ∧ totalWeight rest < c.weight := by
  unfold Comparison.remainder at hrest
  split at hrest
  · cases hrest
    exact ⟨nofun, c.weight_pos⟩
  · cases c with
    | values a b =>
        obtain ⟨heval, hle⟩ := (Value.meet_isEvaluated hc.1 hc.2).remainder hrest
        exact ⟨heval, Nat.lt_of_le_of_lt hle (a.meet_weight_lt b)⟩
    | envs a b =>
        obtain ⟨heval, hle⟩ := (Env.meet_isEvaluated hc.1 hc.2).remainder hrest
        exact ⟨heval, Nat.lt_of_le_of_lt hle (a.meet_weight_lt b)⟩
    | tails x y =>
        obtain ⟨⟨v, rfl, -, hv⟩, w, rfl, -, hw⟩ := hc
        cases hrest
        refine ⟨by simpa [Comparison.IsEvaluated] using ⟨hv, hw⟩, ?_⟩
        simp [Comparison.weight, Thunk.weight]

end

@[simp] theorem totalWeight_append (todo todo' : List Comparison) :
    totalWeight (todo ++ todo') = totalWeight todo + totalWeight todo' := by
  induction todo with
  | nil => simp
  | cons c todo ih =>
      simp only [List.cons_append, totalWeight, ih]
      omega

/-- Comparing evaluated data ends, whatever the evaluator, and has no effect. -/
theorem compareAll_of_isEvaluated {todo : List Comparison} (h : ∀ c ∈ todo, c.IsEvaluated) :
    ∃ b, ∀ (ev : Evaluator) (fuel : Nat), totalWeight todo < fuel →
      compareAll ev fuel todo = pure b := by
  -- Every step leaves fewer parts to be compared.
  induction hweight : totalWeight todo using Nat.strongRecOn generalizing todo with
  | ind n ih =>
      subst hweight
      cases todo with
      | nil =>
          refine ⟨true, fun ev fuel hfuel => ?_⟩
          obtain ⟨fuel, rfl⟩ : ∃ k, fuel = k + 1 := ⟨fuel - 1, by omega⟩
          rfl
      | cons c todo =>
          rw [List.forall_mem_cons] at h
          have hstep := compareAll_cons_of_isEvaluated h.1
          cases hrest : c.remainder with
          | none =>
              refine ⟨false, fun ev fuel hfuel => ?_⟩
              obtain ⟨fuel, rfl⟩ : ∃ k, fuel = k + 1 := ⟨fuel - 1, by omega⟩
              rw [hstep, hrest]
          | some rest =>
              obtain ⟨heval, hlt⟩ := h.1.remainder hrest
              have hless : totalWeight (rest ++ todo) < totalWeight (c :: todo) := by
                simp only [totalWeight_append, totalWeight]
                omega
              obtain ⟨b, hb⟩ := ih _ hless (List.forall_mem_append.2 ⟨heval, h.2⟩) rfl
              refine ⟨b, fun ev fuel hfuel => ?_⟩
              obtain ⟨fuel, rfl⟩ : ∃ k, fuel = k + 1 := ⟨fuel - 1, by omega⟩
              rw [hstep, hrest]
              exact hb ev fuel (by omega)

end PolicyEval
