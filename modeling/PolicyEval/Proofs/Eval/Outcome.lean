import PolicyEval.Eval

/-!
# Computations that succeed

How a computation that is put together from others comes to its result.  A successful computation
had successful parts, and the other way round; one level deeper it needs room under the limit.

* `Eval.bind_eq_ok` — one computation after another.
* `Eval.within_eq_ok` — a computation one level deeper.
-/

namespace PolicyEval

/-- There is room for one more level under a limit. -/
def Depth.HasRoom (limit : Option Nat) (d : Depth) : Prop := ∀ n, limit = some n → d.current < n

theorem Depth.hasRoom_none (d : Depth) : d.HasRoom none := nofun

theorem Depth.enter_eq_ok {limit : Option Nat} {d d' : Depth} :
    d.enter limit = .ok d' ↔ d.HasRoom limit ∧ d' = d.deeper := by
  cases limit with
  | none => simp [enter, HasRoom, eq_comm]
  | some n =>
      by_cases h : n ≤ d.current
      · simp [enter, HasRoom, h, Nat.not_lt.2 h]
      · simp [enter, HasRoom, h, Nat.lt_of_not_le h, eq_comm]

namespace Eval

variable {α β : Type}

/-- The next computation starts where the first one ended, if that one succeeded. -/
theorem bind_apply (first : Eval α) (next : α → Eval β) (s : State) :
    (first >>= next) s =
      match first s with
      | .ok a s' => next a s'
      | .error stop s' => .error stop s' := by
  change EStateM.bind first next s = _
  unfold EStateM.bind
  cases first s <;> rfl

theorem bind_of_ok {first : Eval α} {next : α → Eval β} {s s' : State} {a : α}
    (h : first s = .ok a s') : (first >>= next) s = next a s' := by
  rw [bind_apply, h]

theorem bind_of_error {first : Eval α} {next : α → Eval β} {s s' : State} {stop : Stop}
    (h : first s = .error stop s') : (first >>= next) s = .error stop s' := by
  rw [bind_apply, h]

theorem bind_eq_ok {first : Eval α} {next : α → Eval β} {s s'' : State} {b : β} :
    (first >>= next) s = .ok b s'' ↔ ∃ a s', first s = .ok a s' ∧ next a s' = .ok b s'' := by
  rw [bind_apply]
  cases first s with
  | ok a s' => exact ⟨fun h => ⟨a, s', rfl, h⟩, fun ⟨_, _, rfl, h⟩ => h⟩
  | error stop s' => exact ⟨nofun, nofun⟩

theorem pure_eq_ok {a b : α} {s s' : State} :
    (pure a : Eval α) s = .ok b s' ↔ a = b ∧ s = s' := by
  change EStateM.Result.ok a s = .ok b s' ↔ _
  simp

theorem lift_eq_ok {result : Except FaultCause α} {a : α} {s s' : State} :
    lift result s = .ok a s' ↔ result = .ok a ∧ s = s' := by
  cases result with
  | ok b => simp only [lift, pure_eq_ok, Except.ok.injEq]
  | error cause => exact ⟨nofun, nofun⟩

/-- Keeping a result leaves one that is already there. -/
theorem keep_apply (address : Nat) (v : Value) (s : State) :
    keep address v s =
      match s.store.kept? address with
      | some kept => .ok kept s
      | none => .ok v { s with store := s.store.keep address v } := by
  change (match (match s.store.kept? address with
    | some kept => (kept, s)
    | none => (v, { s with store := s.store.keep address v }) : Value × State) with
    | (a, s) => EStateM.Result.ok a s) = _
  cases s.store.kept? address <;> rfl

theorem force_of_kept {ev : Evaluator} {address : Nat} {q : Suspension} {s : State} {v : Value}
    (h : s.store.kept? address = some v) : force ev (.byNeed address q) s = .ok v s := by
  change (match s.store.kept? address with
    | some v => (pure v : Eval Value)
    | none => q.run ev >>= keep address) s = _
  rw [h]
  rfl

theorem force_of_pending {ev : Evaluator} {address : Nat} {q : Suspension} {s : State}
    (h : s.store.kept? address = none) :
    force ev (.byNeed address q) s = (q.run ev >>= keep address) s := by
  change (match s.store.kept? address with
    | some v => (pure v : Eval Value)
    | none => q.run ev >>= keep address) s = _
  rw [h]

/-- Where there is room for a level, the computation runs on that level and leaves it again. -/
theorem within_of_hasRoom {limit : Option Nat} {s : State} (h : s.depth.HasRoom limit)
    (span : Span) (body : Eval α) :
    within limit span body s =
      match body { s with depth := s.depth.deeper } with
      | .ok a s => .ok a { s with depth := s.depth.leave }
      | .error stop s => .error (stop.leaving span) { s with depth := s.depth.leave } := by
  unfold within
  rewrite [Depth.enter_eq_ok.2 ⟨h, rfl⟩]
  rfl

/-- A computation that succeeds one level deeper found room for that level. -/
theorem within_eq_ok {limit : Option Nat} {span : Span} {body : Eval α} {s s' : State} {a : α} :
    within limit span body s = .ok a s' ↔
      s.depth.HasRoom limit ∧ ∃ s₁, body { s with depth := s.depth.deeper } = .ok a s₁ ∧
        s' = { s₁ with depth := s₁.depth.leave } := by
  unfold within
  cases henter : s.depth.enter limit with
  | error n =>
      have hroom : ¬s.depth.HasRoom limit := fun h => by
        rw [Depth.enter_eq_ok.2 ⟨h, rfl⟩] at henter
        cases henter
      simp [hroom]
  | ok depth =>
      obtain ⟨hroom, rfl⟩ := Depth.enter_eq_ok.1 henter
      dsimp only
      cases body { s with depth := s.depth.deeper } with
      | ok b s₁ =>
          constructor
          · rintro ⟨⟩
            exact ⟨hroom, s₁, rfl, rfl⟩
          · rintro ⟨-, s₂, ⟨⟩, rfl⟩
            rfl
      | error stop s₁ => exact ⟨nofun, nofun⟩

end Eval

end PolicyEval
