import PolicyEval.Proofs.Policy.Delivery
import PolicyEval.Proofs.Sharing.Unobservable

/-!
# Comparing without regard to identity

The plain way to compare is to look at both sides in every part, by recursion, also where both are
one and the same.  Whenever that look ends with a verdict, the comparison that stops at identity has
the same verdict.  What it skips is a look at one thing from two sides, and such a look, if it ends,
finds no difference: whatever is evaluated on both sides is evaluated from the same suspensions.

The look may leave results behind that are taken over by what is compared later.  So the two ways
are not compared with each other, but each with the account without a store.

* `comparePlainly` — comparing in every part.
* `Pairing.plain_of_reflexive` — comparing one thing with itself finds no difference.
* `Pairing.plain_yields` — the account comes to the verdict of the plain comparison.
* `Session.Accords.equates_of_plain` — so does the comparison that stops at identity.
-/

namespace PolicyEval

/-! ## The plain comparison -/

/-- Compares two things in every part, whether or not they are one and the same: list cells part by
part, closures of one function binding by binding.  The fuel bounds the nesting of the recursion. -/
def comparePlainly (ev : Evaluator) : Nat → Comparison → Eval Bool
  | 0, _ => throw .outOfFuel
  | fuel + 1, .values left right =>
    match left, right with
    | .int a, .int b => pure (decide (a = b))
    | .bool a, .bool b => pure (decide (a = b))
    | .prim a, .prim b => pure (decide (a = b))
    | .closure _ f env, .closure _ g env' =>
      if f.place.id = g.place.id then comparePlainly ev fuel (.envs env env') else pure false
    | .nil, .nil => pure true
    | .cons _ head tail, .cons _ head' tail' => do
      let x ← force ev head
      let y ← force ev head'
      if ← comparePlainly ev fuel (.values x y) then comparePlainly ev fuel (.tails tail tail')
      else pure false
    | _, _ => pure false
  | fuel + 1, .tails left right => do
    let x ← forceTail ev left
    let y ← forceTail ev right
    comparePlainly ev fuel (.values x y)
  | fuel + 1, .envs left right =>
    match left, right with
    | .empty, .empty => pure true
    | .frame _ name thunk rest, .frame _ name' thunk' rest' =>
      if name.same name' then do
        let x ← force ev thunk
        let y ← force ev thunk'
        if ← comparePlainly ev fuel (.values x y) then comparePlainly ev fuel (.envs rest rest')
        else pure false
      else pure false
    | _, _ => pure false

/-- Compares plainly what a meeting leaves to be compared. -/
def Meeting.settle (ev : Evaluator) (fuel : Nat) : Meeting → Eval Bool
  | .equal => pure true
  | .unequal => pure false
  | .envs left right => comparePlainly ev fuel (.envs left right)
  | .parts left right next => do
    let x ← force ev left
    let y ← force ev right
    if ← comparePlainly ev fuel (.values x y) then comparePlainly ev fuel next else pure false

theorem comparePlainly_values (ev : Evaluator) (fuel : Nat) (left right : Value) :
    comparePlainly ev (fuel + 1) (.values left right) = (left.meet right).settle ev fuel := by
  cases left <;> cases right <;> simp only [comparePlainly, Value.meet] <;>
    grind [Meeting.settle]

theorem comparePlainly_envs (ev : Evaluator) (fuel : Nat) (left right : Env) :
    comparePlainly ev (fuel + 1) (.envs left right) = (left.meet right).settle ev fuel := by
  cases left <;> cases right <;> simp only [comparePlainly, Env.meet] <;>
    grind [Meeting.settle]

/-- The verdict on two parts, one after the other. -/
theorem Meeting.settle_parts_eq_ok {ev : Evaluator} {fuel : Nat} {left right : Thunk}
    {next : Comparison} {s s' : State} {t : Bool}
    (h : (Meeting.parts left right next).settle ev fuel s = .ok t s') :
    ∃ x s₁ y s₂ t₁ s₃, force ev left s = .ok x s₁ ∧ force ev right s₁ = .ok y s₂ ∧
      comparePlainly ev fuel (.values x y) s₂ = .ok t₁ s₃ ∧
      ((t₁ = true ∧ comparePlainly ev fuel next s₃ = .ok t s') ∨
        t₁ = false ∧ t = false ∧ s' = s₃) := by
  obtain ⟨x, s₁, hx, h⟩ := Eval.bind_eq_ok.1 h
  obtain ⟨y, s₂, hy, h⟩ := Eval.bind_eq_ok.1 h
  obtain ⟨t₁, s₃, hvalues, h⟩ := Eval.bind_eq_ok.1 h
  refine ⟨x, s₁, y, s₂, t₁, s₃, hx, hy, hvalues, ?_⟩
  cases t₁ with
  | true => exact .inl ⟨rfl, h⟩
  | false =>
      cases h
      exact .inr ⟨rfl, rfl, rfl⟩

/-- The verdict on second parts of list cells is that on their values, which are lists. -/
theorem comparePlainly_tails_eq_ok {ev : Evaluator} {fuel : Nat} {left right : Thunk}
    {s s' : State} {t : Bool} (h : comparePlainly ev (fuel + 1) (.tails left right) s = .ok t s') :
    ∃ x s₁ y s₂, force ev left s = .ok x s₁ ∧ x.isList = true ∧ force ev right s₁ = .ok y s₂ ∧
      y.isList = true ∧ comparePlainly ev fuel (.values x y) s₂ = .ok t s' := by
  simp only [comparePlainly, forceTail, bind_assoc] at h
  obtain ⟨x, s₁, hx, hrest⟩ := Eval.bind_eq_ok.1 h
  obtain ⟨x', s₁', hxlist, hrest⟩ := Eval.bind_eq_ok.1 hrest
  obtain ⟨y, s₂, hy, hrest⟩ := Eval.bind_eq_ok.1 hrest
  obtain ⟨y', s₂', hylist, hvalues⟩ := Eval.bind_eq_ok.1 hrest
  obtain ⟨hxtail, rfl⟩ := Eval.lift_eq_ok.1 hxlist
  obtain ⟨hytail, rfl⟩ := Eval.lift_eq_ok.1 hylist
  obtain ⟨hxlist, rfl⟩ := asTail_eq_ok.1 hxtail
  obtain ⟨hylist, rfl⟩ := asTail_eq_ok.1 hytail
  exact ⟨_, _, _, _, hx, hxlist, hy, hylist, hvalues⟩

namespace Pairing

variable {P : Pairing} {n m : Nat} {W : Matching} {s s' : State} {t : Bool}

/-! ## One thing with itself -/

/-- Comparing plainly, with this much fuel, what is one by the account finds no difference. -/
def PlainReflexive (P : Pairing) (n m : Nat) : Prop :=
  ∀ {W : Matching} {s s' : State} {c c' : Comparison} {t : Bool}, P.Agrees false W s →
    c.SameKind (Value.Mirrors P W) (Env.Mirrors P W) c' → c'.IsReflexive →
    comparePlainly (eval n) m c s = .ok t s' → t = true ∧ ∃ W', P.Leads false W s W' s'

/-- What the meeting of one thing with itself leaves to be compared is settled without a
difference. -/
theorem settle_of_reflexive (hn : P.EvalYields false n) (hm : P.PlainReflexive n m)
    {meeting meeting' : Meeting} (hs : P.Agrees false W s)
    (hmeeting : P.kinship.Meets W meeting meeting') (hsame : meeting'.IsReflexive)
    (hrun : meeting.settle (eval n) m s = .ok t s') :
    t = true ∧ ∃ W', P.Leads false W s W' s' := by
  cases hmeeting with
  | equal =>
      cases hrun
      exact ⟨rfl, W, .refl W, hs, rfl⟩
  | unequal => exact hsame.elim
  | envs hleft hright => exact hm hs (.envs hleft hright) hsame hrun
  | parts hx hy hc =>
      obtain ⟨rfl, hsame⟩ := hsame
      obtain ⟨v, s₁, w, s₂, t₁, s₃, hv, hw, hvalues, hnext⟩ := Meeting.settle_parts_eq_ok hrun
      -- Both sides force one thunk of the account, maybe twice, and get one value of the account.
      obtain ⟨W₁, u, h₁, hvu, hwu⟩ := force_twins hn hs hx hy hv hw
      obtain ⟨rfl, W₂, h₂⟩ := hm h₁.agrees (.values hvu hwu) rfl hvalues
      rcases hnext with ⟨-, hnext⟩ | ⟨hfalse, -⟩
      · obtain ⟨rfl, W₃, h₃⟩ :=
          hm h₂.agrees (sameKind_mono (h₁.le.trans h₂.le) hc) hsame hnext
        exact ⟨rfl, W₃, (h₁.trans h₂).trans h₃⟩
      · cases hfalse

/-- Comparing plainly what is one by the account finds no difference. -/
theorem plain_of_reflexive (hn : P.EvalYields false n) (m : Nat) : P.PlainReflexive n m := by
  induction m with
  | zero =>
      intro W s s' c c' t hs hc hsame hrun
      cases hrun
  | succ m ih =>
      intro W s s' c c' t hs hc hsame hrun
      cases hc with
      | @values a b a' b' ha hb =>
          obtain rfl : a' = b' := hsame
          rw [comparePlainly_values] at hrun
          exact settle_of_reflexive hn ih hs (P.kinship.values_meet (W := W) ha hb)
            a'.meet_self_isReflexive hrun
      | @envs a b a' b' ha hb =>
          obtain rfl : a' = b' := hsame
          rw [comparePlainly_envs] at hrun
          exact settle_of_reflexive hn ih hs (P.kinship.envs_meet (W := W) ha hb)
            a'.meet_self_isReflexive hrun
      | @tails _ _ _ _ x x' y y' _ _ _ _ ha hb =>
          obtain rfl : x' = y' := hsame
          obtain ⟨v, s₁, w, s₂, hv, -, hw, -, hvalues⟩ := comparePlainly_tails_eq_ok hrun
          obtain ⟨W₁, u, h₁, hvu, hwu⟩ := force_twins hn hs ha.layer.tails hb.layer.tails hv hw
          obtain ⟨rfl, W₂, h₂⟩ := ih h₁.agrees (.values hvu hwu) rfl hvalues
          exact ⟨rfl, W₂, h₁.trans h₂⟩

/-! ## The verdict of the account -/

/-- By the account the comparisons come to a verdict, at any seed. -/
def ComesTo (todo : List Comparison) (t : Bool) : Prop :=
  ∀ σ : Seed, Yields none σ 0 (stepPlan Comparison.coincides todo) t

/-- What is compared plainly with this much fuel is compared by the account with the same verdict,
at any seed.  What is still to be compared matters only if no difference was found. -/
def PlainYields (P : Pairing) (n m : Nat) : Prop :=
  ∀ {W : Matching} {s s' : State} {c c' : Comparison} {t : Bool}, P.Agrees false W s →
    c.SameKind (Value.Mirrors P W) (Env.Mirrors P W) c' →
    comparePlainly (eval n) m c s = .ok t s' → ∀ σ : Seed, ∃ W', P.Leads false W s W' s' ∧
      ∀ {todo' : List Comparison} {r : Bool}, (t = true → ComesTo todo' r) →
        Yields none σ 0 (stepPlan Comparison.coincides (c' :: todo')) (t && r)

/-- What a meeting leaves to be compared is settled by the account in the same way. -/
theorem settle_yields (hn : P.EvalYields false n) (hm : P.PlainYields n m)
    {meeting meeting' : Meeting} (hs : P.Agrees false W s)
    (hmeeting : P.kinship.Meets W meeting meeting')
    (hrun : meeting.settle (eval n) m s = .ok t s') (σ : Seed) :
    ∃ W', P.Leads false W s W' s' ∧
      ∀ {todo' : List Comparison} {r : Bool}, (t = true → ComesTo todo' r) →
        Yields none σ 0 (meeting'.plan todo') (t && r) := by
  cases hmeeting with
  | equal =>
      cases hrun
      exact ⟨W, ⟨.refl W, hs, rfl⟩, fun htodo => .compare (htodo rfl _) .done⟩
  | unequal =>
      cases hrun
      exact ⟨W, ⟨.refl W, hs, rfl⟩, fun _ => .done⟩
  | envs hleft hright =>
      obtain ⟨W₁, h₁, hyields⟩ := hm hs (.envs hleft hright) hrun (σ ++ [0])
      exact ⟨W₁, h₁, fun htodo => .compare (hyields htodo) .done⟩
  | @parts x y x' y' next next' hx hy hc =>
      obtain ⟨v, s₁, w, s₂, t₁, s₃, hv, hw, hvalues, hnext⟩ := Meeting.settle_parts_eq_ok hrun
      obtain ⟨W₁, v', h₁, hv', hx'⟩ := force_yields hn hs hx hv (σ ++ [0])
      obtain ⟨W₂, w', h₂, hw', hy'⟩ := force_yields hn h₁.agrees (hy.mono h₁.le) hw (σ ++ [1])
      obtain ⟨W₃, h₃, hvalues'⟩ :=
        hm h₂.agrees (.values (hv'.mono h₂.le) hw') hvalues (σ ++ [2])
      have h := (h₁.trans h₂).trans h₃
      have hplan : ∀ {todo' : List Comparison} {r : Bool},
          Yields none (σ ++ [2]) 0
            (stepPlan Comparison.coincides (.values v' w' :: next' :: todo')) r →
          Yields none σ 0 ((Meeting.parts x' y' next').plan todo') r :=
        fun hcompare => hx'.force (hy'.force (.compare hcompare .done))
      -- The second parts are compared only if the first ones are equal.
      rcases hnext with ⟨rfl, hnext⟩ | ⟨rfl, rfl, rfl⟩
      · have hfollow := hm h.agrees (sameKind_mono h.le hc) hnext
        obtain ⟨W₄, h₄, -⟩ := hfollow []
        refine ⟨W₄, h.trans h₄, fun htodo => hplan (hvalues' fun _ τ => ?_)⟩
        obtain ⟨-, -, hyields⟩ := hfollow τ
        exact hyields htodo
      · exact ⟨W₃, h, fun {_ r} _ => hplan (hvalues' (r := r) nofun)⟩

/-- The account comes to the verdict of the plain comparison. -/
theorem plain_yields (hn : P.EvalYields false n) (m : Nat) : P.PlainYields n m := by
  induction m with
  | zero =>
      intro W s s' c c' t hs hc hrun
      cases hrun
  | succ m ih =>
      intro W s s' c c' t hs hc hrun σ
      by_cases hcoincides : c'.coincides = true
      · -- One thing by the account, which goes on with the rest.
        obtain ⟨rfl, W', h⟩ := plain_of_reflexive hn (m + 1) hs hc
          (Comparison.isReflexive_of_coincides hcoincides) hrun
        refine ⟨W', h, fun htodo => ?_⟩
        rw [stepPlan, if_pos hcoincides]
        exact .compare (htodo rfl _) .done
      · simp only [stepPlan, if_neg hcoincides]
        cases hc with
        | values ha hb =>
            rw [comparePlainly_values] at hrun
            exact settle_yields hn ih hs (P.kinship.values_meet (W := W) ha hb) hrun σ
        | envs ha hb =>
            rw [comparePlainly_envs] at hrun
            exact settle_yields hn ih hs (P.kinship.envs_meet (W := W) ha hb) hrun σ
        | tails ha hb =>
            obtain ⟨v, s₁, w, s₂, hv, hvlist, hw, hwlist, hvalues⟩ :=
              comparePlainly_tails_eq_ok hrun
            obtain ⟨W₁, v', h₁, hv', hx'⟩ := force_yields hn hs ha.layer.tails hv (σ ++ [0])
            obtain ⟨W₂, w', h₂, hw', hy'⟩ :=
              force_yields hn h₁.agrees (hb.layer.tails.mono h₁.le) hw (σ ++ [1])
            obtain ⟨W₃, h₃, hyields⟩ :=
              ih h₂.agrees (.values (hv'.mono h₂.le) hw') hvalues (σ ++ [2])
            refine ⟨W₃, (h₁.trans h₂).trans h₃, fun htodo => ?_⟩
            have hvtail : asTail v' = .ok v' :=
              asTail_eq_ok.2 ⟨hv'.layer.isList_eq.trans hvlist, rfl⟩
            have hwtail : asTail w' = .ok w' :=
              asTail_eq_ok.2 ⟨hw'.layer.isList_eq.trans hwlist, rfl⟩
            refine hx'.force ?_
            rw [hvtail]
            refine hy'.force ?_
            rw [hwtail]
            exact .compare (hyields htodo) .done

end Pairing

/-! ## Verdicts -/

/-- With enough fuel comparing the values over the store comes to this verdict. -/
def Store.Equates (store : Store) (a b : Value) (t : Bool) : Prop :=
  ∃ N, ∀ fuel, N ≤ fuel → ((equal (eval fuel) fuel a b).report store).result = .ok t

/-- Comparing the values plainly over the store comes to this verdict. -/
def Store.EquatesPlainly (store : Store) (a b : Value) (t : Bool) : Prop :=
  ∃ n m, ((comparePlainly (eval n) m (.values a b)).report store).result = .ok t

theorem Store.Equates.unique {store : Store} {a b : Value} {t t' : Bool}
    (h : store.Equates a b t) (h' : store.Equates a b t') : t = t' := by
  obtain ⟨N, hN⟩ := h
  obtain ⟨N', hN'⟩ := h'
  have hsame := (hN (max N N') (by omega)).symm.trans (hN' (max N N') (by omega))
  exact Except.ok.inj hsame

/-! ## Sessions -/

namespace Session

/-- A value in a slot mirrors one of the account. -/
theorem Accords.mirrors {setting : Setting} {s : Session} {W : Matching} {k : Nat}
    {values : String → Option Value} (h : s.Accords setting W k values) {slot : String} {v : Value}
    (hv : s.slot? slot = some v) :
    ∃ v', values slot = some v' ∧ v.Mirrors (.same setting) W v' := by
  have hslot := h.slots slot
  rw [hv] at hslot
  generalize values slot = held at hslot
  cases hslot with
  | some hvalue => exact ⟨_, rfl, hvalue.1⟩

/-- Sessions answer with the verdict on the values in the slots. -/
theorem result_of_perform_equals {s : Session} {left right : String} {a b : Value}
    (ha : s.slot? left = some a) (hb : s.slot? right = some b) {fuel : Nat} {t : Bool}
    (h : (s.perform fuel (.equals left right)).2 = .truth t) :
    ((equal (eval fuel) fuel a b).report s.store).result = .ok t := by
  simp only [perform, withSlot, ha, hb, answers] at h
  cases hresult : ((equal (eval fuel) fuel a b).report s.store).result with
  | ok t' =>
      rw [hresult] at h
      cases h
      rfl
  | error stop =>
      rw [hresult] at h
      cases stop <;> cases h

/-- If the plain comparison of two values comes to a verdict, so does the one that stops at
identity. -/
theorem Accords.equates_of_plain {setting : Setting} {s : Session} {W : Matching} {k : Nat}
    {values : String → Option Value} (h : s.Accords setting W k values) {left right : String}
    {a b : Value} (ha : s.slot? left = some a) (hb : s.slot? right = some b) {t : Bool}
    (hplain : s.store.EquatesPlainly a b t) : s.store.Equates a b t := by
  obtain ⟨n, m, hresult⟩ := hplain
  obtain ⟨state, hrun⟩ := Eval.report_result_eq_ok.1 hresult
  obtain ⟨a', ha', hmirrors⟩ := h.mirrors ha
  obtain ⟨b', hb', hmirrors'⟩ := h.mirrors hb
  have heval : (Pairing.same setting).EvalYields false n :=
    Pairing.eval_yields (Pairing.same_follows setting) n
  obtain ⟨-, -, hyields⟩ := Pairing.plain_yields heval m ⟨h.poised.placed.tracks, nofun⟩
    (.values hmirrors hmirrors') hrun ([k] ++ [0])
  have hdone : Pairing.ComesTo [] true := fun _ => .done
  have hcompare := hyields fun _ => hdone
  rw [Bool.and_true] at hcompare
  have hplan : s.plan values (.equals left right) =
      .compare [.values a' b'] fun t => .done (.truth t) := by
    simp only [plan, slotPlan, ha', hb']
  have hconcludes : Concludes [k] (s.plan values (.equals left right)) (.truth t) := by
    rw [hplan]
    exact .inl (.compare hcompare .done)
  obtain ⟨N, hN⟩ := h.perform_of_concludes (by simp) hconcludes
  refine ⟨N, fun fuel hfuel => result_of_perform_equals ha hb ?_⟩
  obtain ⟨W', -, hreply⟩ := hN fuel hfuel
  generalize (s.perform fuel (.equals left right)).2 = reply at hreply
  cases hreply with
  | plain => rfl

end Session

end PolicyEval
