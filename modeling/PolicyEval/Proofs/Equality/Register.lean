import PolicyEval.Proofs.Eval.Evaluated

/-!
# Registers — who carries which tag

Comparing takes two things with one tag to be equal without a look inside.  That is right as long as
no two different things carry one tag.  A register lists what carries each tag.  On evaluated data
that one register lists, the tags make no difference: comparing tells whether they look the same in
every part, and this is an equivalence.

* `Value.alike_self`, `Value.alike_comm`, `Value.alike_trans` — looking the same is an equivalence.
* `Register`, `Value.Listed`, `Env.Listed` — data whose tags are told apart.
* `compareAll_eq_alike` — comparing listed, evaluated data tells whether they are alike.
-/

namespace PolicyEval

/-! ## Looking the same is an equivalence -/

mutual
theorem Value.alike_self : {v : Value} → v.IsEvaluated → v.alike v = true
  | .int _, _ | .bool _, _ | .prim _, _ | .nil, _ => by simp [Value.alike]
  | .closure _ _ ρ, h => by
      simp only [Value.IsEvaluated] at h
      simp [Value.alike, Env.alike_self h]
  | .cons _ x y, h => by
      simp only [Value.IsEvaluated] at h
      simp [Value.alike, Thunk.alike_self h.1, Thunk.alike_self h.2.1]

theorem Thunk.alike_self : {x : Thunk} → x.IsEvaluated → x.alike x = true
  | .ready v, h => by
      simp only [Thunk.IsEvaluated] at h
      simp [Thunk.alike, Value.alike_self h]
  | .byName _, h | .byNeed _ _, h => by simp only [Thunk.IsEvaluated] at h

theorem Env.alike_self : {ρ : Env} → ρ.IsEvaluated → ρ.alike ρ = true
  | .empty, _ => by simp [Env.alike]
  | .frame _ _ x rest, h => by
      simp only [Env.IsEvaluated] at h
      simp [Env.alike, Name.same, Thunk.alike_self h.1, Env.alike_self h.2]
end

mutual
theorem Value.alike_comm : (v w : Value) → v.alike w = w.alike v
  | .closure _ f ρ, .closure _ g ρ' => by
      simp only [Value.alike, Env.alike_comm ρ ρ', eq_comm]
  | .cons _ x y, .cons _ x' y' => by
      simp only [Value.alike, Thunk.alike_comm x x', Thunk.alike_comm y y']
  | .int _, w | .bool _, w | .prim _, w | .nil, w => by
      cases w <;> simp [Value.alike, eq_comm]
  | .closure .., .int _ | .closure .., .bool _ | .closure .., .prim _ | .closure .., .nil
  | .closure .., .cons .. | .cons .., .int _ | .cons .., .bool _ | .cons .., .prim _
  | .cons .., .nil | .cons .., .closure .. => by simp [Value.alike]

theorem Thunk.alike_comm : (x y : Thunk) → x.alike y = y.alike x
  | .ready v, .ready w => by simp only [Thunk.alike, Value.alike_comm v w]
  | .ready _, .byName _ | .ready _, .byNeed _ _ | .byName _, .ready _ | .byName _, .byName _
  | .byName _, .byNeed _ _ | .byNeed _ _, .ready _ | .byNeed _ _, .byName _
  | .byNeed _ _, .byNeed _ _ => by simp [Thunk.alike]

theorem Env.alike_comm : (ρ ρ' : Env) → ρ.alike ρ' = ρ'.alike ρ
  | .frame _ name x rest, .frame _ name' x' rest' => by
      simp only [Env.alike, Thunk.alike_comm x x', Env.alike_comm rest rest', Name.same,
        BEq.comm (a := name.index)]
  | .empty, .empty | .empty, .frame .. | .frame .., .empty => by simp [Env.alike]
end

mutual
theorem Value.alike_trans {u w : Value} : (v : Value) → u.alike v = true → v.alike w = true →
    u.alike w = true
  | .int _, h, h' | .bool _, h, h' | .prim _, h, h' | .nil, h, h' => by
      cases u <;> cases w <;> simp_all [Value.alike]
  | .closure _ g ρ, h, h' => by
      cases u with
      | closure _ f σ =>
          cases w with
          | closure _ k τ =>
              simp only [Value.alike, Bool.and_eq_true, decide_eq_true_eq] at h h' ⊢
              exact ⟨h.1.trans h'.1, Env.alike_trans ρ h.2 h'.2⟩
          | int | bool | prim | nil | cons => simp [Value.alike] at h'
      | int | bool | prim | nil | cons => simp [Value.alike] at h
  | .cons _ x y, h, h' => by
      cases u with
      | cons _ x₁ y₁ =>
          cases w with
          | cons _ x₂ y₂ =>
              simp only [Value.alike, Bool.and_eq_true] at h h' ⊢
              exact ⟨Thunk.alike_trans x h.1 h'.1, Thunk.alike_trans y h.2 h'.2⟩
          | int | bool | prim | nil | closure => simp [Value.alike] at h'
      | int | bool | prim | nil | closure => simp [Value.alike] at h

theorem Thunk.alike_trans {x z : Thunk} : (y : Thunk) → x.alike y = true → y.alike z = true →
    x.alike z = true
  | .ready v, h, h' => by
      cases x with
      | ready u =>
          cases z with
          | ready w =>
              simp only [Thunk.alike] at h h' ⊢
              exact Value.alike_trans v h h'
          | byName | byNeed => simp [Thunk.alike] at h'
      | byName | byNeed => simp [Thunk.alike] at h
  | .byName _, h, _ | .byNeed _ _, h, _ => by cases x <;> simp [Thunk.alike] at h

theorem Env.alike_trans {ρ ρ'' : Env} : (ρ' : Env) → ρ.alike ρ' = true → ρ'.alike ρ'' = true →
    ρ.alike ρ'' = true
  | .empty, h, h' => by cases ρ <;> cases ρ'' <;> simp_all [Env.alike]
  | .frame _ name x rest, h, h' => by
      cases ρ with
      | empty => simp [Env.alike] at h
      | frame _ name₁ x₁ rest₁ =>
          cases ρ'' with
          | empty => simp [Env.alike] at h'
          | frame _ name₂ x₂ rest₂ =>
              simp only [Env.alike, Bool.and_eq_true, Name.same_iff] at h h' ⊢
              exact ⟨⟨h.1.1.trans h'.1.1, Thunk.alike_trans x h.1.2 h'.1.2⟩,
                Env.alike_trans rest h.2 h'.2⟩
end

/-- A symmetric and transitive relation does not tell related things apart. -/
theorem eq_of_equivalent {α : Type} {alike : α → α → Bool}
    (hcomm : ∀ a b, alike a b = alike b a)
    (htrans : ∀ {a c : α} (b : α), alike a b = true → alike b c = true → alike a c = true)
    {a b a' b' : α} (ha : alike a a' = true) (hb : alike b b' = true) :
    alike a b = alike a' b' := by
  rw [Bool.eq_iff_iff]
  constructor
  · intro h
    rw [hcomm] at ha
    exact htrans a ha (htrans b h hb)
  · intro h
    rw [hcomm] at hb
    exact htrans a' ha (htrans b' h hb)

/-! ## Registers -/

/-- A list of what carries each tag; tags from `next` on are not carried yet. -/
structure Register where
  next : Nat
  carrier : Nat → Option (Value ⊕ Env)
  lt_next : ∀ {tag object}, carrier tag = some object → tag < next

mutual
/-- Every closure, list cell and frame in the value is the one that the register lists. -/
def Value.Listed (r : Register) : Value → Prop
  | .int _ | .bool _ | .prim _ | .nil => True
  | .closure tag lambda ρ => r.carrier tag = some (.inl (.closure tag lambda ρ)) ∧ ρ.Listed r
  | .cons tag x y => r.carrier tag = some (.inl (.cons tag x y)) ∧ x.Listed r ∧ y.Listed r

/-- Every closure, list cell and frame in a known value is the one that the register lists. -/
def Thunk.Listed (r : Register) : Thunk → Prop
  | .ready v => v.Listed r
  | .byName _ | .byNeed _ _ => True

/-- Every frame, and every closure and list cell in the bindings, is the one that the register
lists. -/
def Env.Listed (r : Register) : Env → Prop
  | .empty => True
  | .frame tag name x rest =>
    r.carrier tag = some (.inr (.frame tag name x rest)) ∧ x.Listed r ∧ rest.Listed r
end

/-- Both sides of the comparison are listed. -/
def Comparison.Listed (r : Register) : Comparison → Prop
  | .values a b => a.Listed r ∧ b.Listed r
  | .tails x y => x.Listed r ∧ y.Listed r
  | .envs a b => a.Listed r ∧ b.Listed r

namespace Register

variable {r r' r'' : Register}

/-- What was listed stays listed, and nothing else is put under an old tag. -/
structure Le (r r' : Register) : Prop where
  next_le : r.next ≤ r'.next
  carrier_eq : ∀ tag, tag < r.next → r'.carrier tag = r.carrier tag

theorem Le.refl (r : Register) : r.Le r := ⟨Nat.le_refl _, fun _ _ => rfl⟩

theorem Le.trans (h : r.Le r') (h' : r'.Le r'') : r.Le r'' :=
  ⟨Nat.le_trans h.next_le h'.next_le, fun tag htag =>
    (h'.carrier_eq tag (Nat.lt_of_lt_of_le htag h.next_le)).trans (h.carrier_eq tag htag)⟩

theorem Le.carrier (h : r.Le r') {tag : Nat} {object : Value ⊕ Env}
    (hobject : r.carrier tag = some object) : r'.carrier tag = some object :=
  (h.carrier_eq tag (r.lt_next hobject)).trans hobject

/-- The register with one more entry, under the next tag. -/
def add (r : Register) (object : Value ⊕ Env) : Register where
  next := r.next + 1
  carrier tag := if tag = r.next then some object else r.carrier tag
  lt_next := by
    intro tag object' h
    split at h
    · omega
    · exact Nat.lt_succ_of_lt (r.lt_next h)

theorem le_add (r : Register) (object : Value ⊕ Env) : r.Le (r.add object) :=
  ⟨Nat.le_succ _, fun _ htag => if_neg (Nat.ne_of_lt htag)⟩

theorem carrier_add (r : Register) (object : Value ⊕ Env) :
    (r.add object).carrier r.next = some object :=
  if_pos rfl

/-- The register in which the tags below a bound count as carried. -/
def raise (r : Register) (bound : Nat) (h : r.next ≤ bound) : Register where
  next := bound
  carrier := r.carrier
  lt_next hobject := Nat.lt_of_lt_of_le (r.lt_next hobject) h

theorem le_raise (r : Register) {bound : Nat} (h : r.next ≤ bound) : r.Le (r.raise bound h) :=
  ⟨h, fun _ _ => rfl⟩

/-- The register with the entries of two others. -/
def join (r r' : Register) : Register where
  next := max r.next r'.next
  carrier tag := (r.carrier tag).or (r'.carrier tag)
  lt_next := by
    intro tag object h
    rcases Option.or_eq_some_iff.1 h with h | ⟨-, h⟩
    · exact Nat.lt_of_lt_of_le (r.lt_next h) (Nat.le_max_left _ _)
    · exact Nat.lt_of_lt_of_le (r'.lt_next h) (Nat.le_max_right _ _)

end Register

section

variable {r r' : Register}

mutual
/-- What a register lists, every register with all its entries lists. -/
theorem Value.Listed.mono (h : ∀ {tag object}, r.carrier tag = some object →
    r'.carrier tag = some object) : {v : Value} → v.Listed r → v.Listed r'
  | .int _, _ | .bool _, _ | .prim _, _ | .nil, _ => by simp only [Value.Listed]
  | .closure _ _ ρ, hv => by
      simp only [Value.Listed] at hv ⊢
      exact ⟨h hv.1, hv.2.mono h⟩
  | .cons _ x y, hv => by
      simp only [Value.Listed] at hv ⊢
      exact ⟨h hv.1, hv.2.1.mono h, hv.2.2.mono h⟩

theorem Thunk.Listed.mono (h : ∀ {tag object}, r.carrier tag = some object →
    r'.carrier tag = some object) : {x : Thunk} → x.Listed r → x.Listed r'
  | .ready v, hx => by
      simp only [Thunk.Listed] at hx ⊢
      exact hx.mono h
  | .byName _, _ | .byNeed _ _, _ => by simp only [Thunk.Listed]

theorem Env.Listed.mono (h : ∀ {tag object}, r.carrier tag = some object →
    r'.carrier tag = some object) : {ρ : Env} → ρ.Listed r → ρ.Listed r'
  | .empty, _ => by simp only [Env.Listed]
  | .frame _ _ x rest, hρ => by
      simp only [Env.Listed] at hρ ⊢
      exact ⟨h hρ.1, hρ.2.1.mono h, hρ.2.2.mono h⟩
end

theorem Value.IsAtom.listed {v : Value} (h : v.IsAtom) : v.Listed r := by
  cases v with
  | int | bool | prim | nil => simp only [Value.Listed]
  | closure | cons => exact h.elim

/-- New frames are listed under new tags. -/
theorem Store.extend_listed (s : Store) {ρ : Env} {bindings : List (Name × Thunk)}
    (hnext : r.next = s.nextTag) (hρ : ρ.Listed r) (hbindings : ∀ b ∈ bindings, b.2.Listed r) :
    ∃ r' : Register, r.Le r' ∧ r'.next = (s.extend ρ bindings).2.nextTag ∧
      (s.extend ρ bindings).1.Listed r' := by
  induction bindings with
  | nil => exact ⟨r, .refl r, hnext, hρ⟩
  | cons b bindings ih =>
      rw [List.forall_mem_cons] at hbindings
      obtain ⟨r₁, hle, hnext₁, hinner⟩ := ih hbindings.2
      let frame : Env := .frame r₁.next b.1 b.2 (s.extend ρ bindings).1
      have hadd := r₁.le_add (.inr frame)
      refine ⟨r₁.add (.inr frame), hle.trans hadd, ?_, ?_⟩
      · exact congrArg (· + 1) hnext₁
      · simp only [Store.extend, Store.freshTag, Env.Listed, ← hnext₁]
        refine ⟨r₁.carrier_add _, ?_, hinner.mono hadd.carrier⟩
        exact hbindings.1.mono (hle.trans hadd).carrier

end

/-! ## Comparing listed data -/

section

variable {r : Register} {c : Comparison}

/-- Listed things with one tag are one and the same. -/
theorem Comparison.alike_of_identical (hlisted : c.Listed r) (heval : c.IsEvaluated)
    (h : c.identical = true) : c.alike = true := by
  match c with
  | .tails _ _ => cases h
  | .values (.closure tag f ρ) (.closure tag' g ρ') =>
      obtain ⟨-, rfl⟩ : f.place.id = g.place.id ∧ tag = tag' := by
        simpa [Comparison.identical, Value.identical] using h
      simp only [Comparison.Listed, Value.Listed] at hlisted
      cases hlisted.1.1.symm.trans hlisted.2.1
      exact Value.alike_self heval.1
  | .values (.cons tag x y) (.cons tag' x' y') =>
      obtain rfl : tag = tag' := by simpa [Comparison.identical, Value.identical] using h
      simp only [Comparison.Listed, Value.Listed] at hlisted
      cases hlisted.1.1.symm.trans hlisted.2.1
      exact Value.alike_self heval.1
  | .envs .empty .empty => simp [Comparison.alike, Env.alike]
  | .envs (.frame tag _ _ _) (.frame tag' _ _ _) =>
      obtain rfl : tag = tag' := by simpa [Comparison.identical, Env.same] using h
      simp only [Comparison.Listed, Env.Listed] at hlisted
      cases hlisted.1.1.symm.trans hlisted.2.1
      exact Env.alike_self heval.1

theorem Meeting.alike_eq {m : Meeting} (h : m.IsEvaluated) :
    m.alike = match m.remainder with
      | some rest => rest.all Comparison.alike
      | none => false := by
  cases m with
  | equal | unequal => rfl
  | envs a b => simp [Meeting.alike, Meeting.remainder, Comparison.alike]
  | parts x y next =>
      obtain ⟨v, rfl, -⟩ := h.1.exists_ready
      obtain ⟨w, rfl, -⟩ := h.2.1.exists_ready
      simp [Meeting.alike, Meeting.remainder, Comparison.alike, Thunk.alike]

/-- A step of comparing does not change the outcome. -/
theorem Comparison.alike_eq (hlisted : c.Listed r) (heval : c.IsEvaluated) :
    c.alike = match c.remainder with
      | some rest => rest.all Comparison.alike
      | none => false := by
  unfold Comparison.remainder
  by_cases hsame : c.identical = true
  · rw [if_pos hsame]
    exact Comparison.alike_of_identical hlisted heval hsame
  · rw [if_neg hsame]
    cases c with
    | values a b =>
        rw [Comparison.alike, ← a.meet_alike b]
        exact Meeting.alike_eq (Value.meet_isEvaluated heval.1 heval.2)
    | envs a b =>
        rw [Comparison.alike, ← a.meet_alike b]
        exact Meeting.alike_eq (Env.meet_isEvaluated heval.1 heval.2)
    | tails x y =>
        obtain ⟨⟨v, rfl, -⟩, w, rfl, -⟩ := heval
        simp [Comparison.alike, Thunk.alike]

/-- All that a meeting leaves to be compared is listed. -/
def Meeting.Listed (r : Register) : Meeting → Prop
  | .equal | .unequal => True
  | .envs a b => a.Listed r ∧ b.Listed r
  | .parts x y next => x.Listed r ∧ y.Listed r ∧ next.Listed r

theorem Value.meet_listed {a b : Value} (ha : a.Listed r) (hb : b.Listed r) :
    (a.meet b).Listed r := by
  cases a <;> cases b <;> simp only [Value.Listed, Value.meet] at ha hb ⊢ <;>
    grind [Meeting.Listed, Comparison.Listed]

theorem Env.meet_listed {a b : Env} (ha : a.Listed r) (hb : b.Listed r) :
    (a.meet b).Listed r := by
  cases a <;> cases b <;> simp only [Env.Listed, Env.meet] at ha hb ⊢ <;>
    grind [Meeting.Listed, Comparison.Listed]

theorem Meeting.Listed.remainder {m : Meeting} (h : m.Listed r) {rest : List Comparison}
    (hrest : m.remainder = some rest) : ∀ d ∈ rest, d.Listed r := by
  unfold Meeting.remainder at hrest
  split at hrest <;> cases hrest
  · simp
  · simpa [Comparison.Listed, Meeting.Listed] using h
  · simp only [Meeting.Listed, Thunk.Listed] at h
    simpa [Comparison.Listed] using ⟨⟨h.1, h.2.1⟩, h.2.2⟩

/-- What a step leaves is listed. -/
theorem Comparison.Listed.remainder (h : c.Listed r) {rest : List Comparison}
    (hrest : c.remainder = some rest) : ∀ d ∈ rest, d.Listed r := by
  unfold Comparison.remainder at hrest
  split at hrest
  · cases hrest
    simp
  · split at hrest
    · exact (Value.meet_listed h.1 h.2).remainder hrest
    · cases hrest
      simpa [Comparison.Listed, Thunk.Listed] using h
    · cases hrest
    · exact (Env.meet_listed h.1 h.2).remainder hrest

end

/-- Comparing listed, evaluated data tells whether they are alike. -/
theorem compareAll_eq_alike {r : Register} {todo : List Comparison}
    (heval : ∀ c ∈ todo, c.IsEvaluated) (hlisted : ∀ c ∈ todo, c.Listed r) (ev : Evaluator)
    (fuel : Nat) (hfuel : totalWeight todo < fuel) :
    compareAll ev fuel todo = pure (todo.all Comparison.alike) := by
  induction fuel generalizing todo with
  | zero => exact absurd hfuel (Nat.not_lt_zero _)
  | succ fuel ih =>
      cases todo with
      | nil => rfl
      | cons c todo =>
          rw [List.forall_mem_cons] at heval hlisted
          rw [compareAll_cons_of_isEvaluated heval.1, List.all_cons,
            Comparison.alike_eq hlisted.1 heval.1]
          cases hrest : c.remainder with
          | none => rfl
          | some rest =>
              obtain ⟨hevalRest, hlt⟩ := heval.1.remainder hrest
              have hlistedRest := hlisted.1.remainder hrest
              dsimp only
              rw [← List.all_append]
              refine ih (List.forall_mem_append.2 ⟨hevalRest, heval.2⟩)
                (List.forall_mem_append.2 ⟨hlistedRest, hlisted.2⟩) ?_
              simp only [totalWeight_append, totalWeight] at hfuel ⊢
              omega

end PolicyEval
