import PolicyEval.Proofs.Equality.Register
import PolicyEval.Proofs.Eval.Ending
import PolicyEval.Proofs.Syntax.Numbering

/-!
# Equal values are interchangeable

Under the eager policy no program tells equal values apart.  Closures are equal if they are made of
the same node and captured equal bindings.  In one program a node is known by its number, so equal
closures have the same parameters and the same body, and go on in the same way with equal bindings.

* `akinKinship` — evaluated data of one program that look the same.
* `run_matches`, `eval_matches` — two evaluations on data that look the same go on in lockstep.
* `Value.Equals`, `Env.Equals` — what compares as equal.
* `equals_interchange` — evaluations in equal environments and calls of equal closures have equal
  outcomes.
-/

namespace PolicyEval

/-! ## Data that look the same -/

/-- Two things of a realm that look the same, each listed by the register of its side. -/
structure Akin {α : Type} (alike : α → α → Bool) (belongs : α → Prop)
    (listed : Register → α → Prop) (W : Register × Register) (a b : α) : Prop where
  alike : alike a b = true
  left : belongs a
  right : belongs b
  listedLeft : listed W.1 a
  listedRight : listed W.2 b

section

variable (R : Realm)

abbrev Value.Akin : Register × Register → Value → Value → Prop :=
  PolicyEval.Akin Value.alike (Value.Belongs R) Value.Listed

abbrev Thunk.Akin : Register × Register → Thunk → Thunk → Prop :=
  PolicyEval.Akin Thunk.alike (Thunk.Belongs R) Thunk.Listed

abbrev Env.Akin : Register × Register → Env → Env → Prop :=
  PolicyEval.Akin Env.alike (Env.Belongs R) Env.Listed

end

/-- Both registers only grow. -/
def RegistersLe (W W' : Register × Register) : Prop := W.1.Le W'.1 ∧ W.2.Le W'.2

section

variable {R : Realm} {W W' : Register × Register}

theorem Akin.mono {α : Type} {alike : α → α → Bool} {belongs : α → Prop}
    {listed : Register → α → Prop}
    (hlisted : ∀ {r r' : Register}, r.Le r' → ∀ {a}, listed r a → listed r' a)
    (h : RegistersLe W W') {a b : α} (hab : Akin alike belongs listed W a b) :
    Akin alike belongs listed W' a b :=
  ⟨hab.alike, hab.left, hab.right, hlisted h.1 hab.listedLeft, hlisted h.2 hab.listedRight⟩

theorem Value.Akin.atom {v : Value} (h : v.IsAtom) : Value.Akin R W v v :=
  ⟨Value.alike_self_of_isAtom h, h.belongs, h.belongs, h.listed, h.listed⟩

theorem Env.Akin.empty : Env.Akin R W .empty .empty := by
  constructor <;> simp only [Env.alike, Env.Belongs, Env.Listed]

theorem Thunk.Akin.ready {v w : Value} (h : Value.Akin R W v w) :
    Thunk.Akin R W (.ready v) (.ready w) := by
  constructor <;> simp only [Thunk.alike, Thunk.Belongs, Thunk.Listed]
  exacts [h.alike, h.left, h.right, h.listedLeft, h.listedRight]

theorem Thunk.Akin.exists_ready {x y : Thunk} (h : Thunk.Akin R W x y) :
    ∃ v w, x = .ready v ∧ y = .ready w ∧ Value.Akin R W v w := by
  obtain ⟨halike, hleft, hright, hlisted, hlisted'⟩ := h
  cases x <;> cases y <;> simp only [Thunk.alike, Bool.false_eq_true] at halike
  simp only [Thunk.Belongs] at hleft hright
  simp only [Thunk.Listed] at hlisted hlisted'
  exact ⟨_, _, rfl, rfl, halike, hleft, hright, hlisted, hlisted'⟩

/-- In one program, closures that look the same are made of one and the same function. -/
theorem Value.Akin.layer (hR : R.IsCoherent) {v w : Value} (h : Value.Akin R W v w) :
    v.SameLayer (Thunk.Akin R W) (Env.Akin R W) w := by
  obtain ⟨halike, hleft, hright, hlisted, hlisted'⟩ := h
  cases v with
  | int | bool | prim | nil =>
      cases w <;> simp only [Value.alike, decide_eq_true_eq, Bool.false_eq_true] at halike
      all_goals
        try subst halike
        exact .atom trivial
  | closure tag f ρ =>
      cases w with
      | int | bool | prim | nil | cons => simp [Value.alike] at halike
      | closure tag' g ρ' =>
          simp only [Value.alike, Bool.and_eq_true, decide_eq_true_eq] at halike
          simp only [Value.Belongs] at hleft hright
          simp only [Value.Listed] at hlisted hlisted'
          -- In one program a node is known by its number, so both are made of one function.
          have hsame := hR.map_eq hleft.1.node hright.1.node halike.1
          obtain rfl : f = g := by
            cases f
            cases g
            cases hsame
            rfl
          exact .closure ⟨halike.2, hleft.2, hright.2, hlisted.2, hlisted'.2⟩
  | cons tag x y =>
      cases w with
      | int | bool | prim | nil | closure => simp [Value.alike] at halike
      | cons tag' x' y' =>
          simp only [Value.alike, Bool.and_eq_true] at halike
          simp only [Value.Belongs] at hleft hright
          simp only [Value.Listed] at hlisted hlisted'
          exact .cons ⟨halike.1, hleft.1, hright.1, hlisted.2.1, hlisted'.2.1⟩
            ⟨halike.2, hleft.2.1, hright.2.1, hlisted.2.2, hlisted'.2.2⟩

theorem Env.Akin.layer (hR : R.IsCoherent) {a b : Env} (h : Env.Akin R W a b) :
    a.SameLayer (Thunk.Akin R W) (Env.Akin R W) b := by
  obtain ⟨halike, hleft, hright, hlisted, hlisted'⟩ := h
  cases a with
  | empty =>
      cases b with
      | empty => exact .empty
      | frame => simp [Env.alike] at halike
  | frame tag name x rest =>
      cases b with
      | empty => simp [Env.alike] at halike
      | frame tag' name' x' rest' =>
          simp only [Env.alike, Bool.and_eq_true, Name.same_iff] at halike
          simp only [Env.Belongs] at hleft hright
          simp only [Env.Listed] at hlisted hlisted'
          obtain rfl := hR.name_eq hleft.1 hright.1 halike.1.1
          exact .frame ⟨halike.1.2, hleft.2.1, hright.2.1, hlisted.2.1, hlisted'.2.1⟩
            ⟨halike.2, hleft.2.2, hright.2.2, hlisted.2.2, hlisted'.2.2⟩

end

/-- Evaluated data of one program that look the same. -/
def akinKinship (R : Realm) (hR : R.IsCoherent) : Kinship where
  World := Register × Register
  le := RegistersLe
  left := R.setting
  right := R.setting
  strict := True
  value := Value.Akin R
  thunk := Thunk.Akin R
  env := Env.Akin R
  todo W := List.Forall₂ (Comparison.SameKind (Value.Akin R W) (Env.Akin R W))
  refl W := ⟨.refl W.1, .refl W.2⟩
  trans h h' := ⟨h.1.trans h'.1, h.2.trans h'.2⟩
  value_mono h := .mono (fun hle _ hv => hv.mono hle.carrier) h
  thunk_mono h := .mono (fun hle _ hx => hx.mono hle.carrier) h
  env_mono h := .mono (fun hle _ hρ => hρ.mono hle.carrier) h
  todo_mono h htodo := htodo.imp fun _ _ hc => hc.mono
    (.mono (fun hle _ hv => hv.mono hle.carrier) h)
    (.mono (fun hle _ hρ => hρ.mono hle.carrier) h)
  atom h := .atom h
  empty := .empty
  value_layer h := h.layer hR
  env_layer h := h.layer hR
  ready h := by
    obtain ⟨v, w, rfl, ⟨⟩, hv⟩ := h.exists_ready
    exact ⟨v, rfl, hv⟩
  ready_strict := by
    intro _ W v y h
    obtain ⟨v, w, ⟨⟩, rfl, -⟩ := h.exists_ready
    exact ⟨w, rfl⟩
  todo_nil := .nil
  todo_cons hc h := .cons hc h

/-! ## Evaluations in lockstep -/

/-- The next tags are those of the registers, and both sides are nested equally deep. -/
structure InStep (W : Register × Register) (s t : State) : Prop where
  left : s.store.nextTag = W.1.next
  right : t.store.nextTag = W.2.next
  depth : s.depth.current = t.depth.current

/-- Both computations fail with the same fault, or both have results that are related by `post` in
registers that grew. -/
def Matches (W : Register × Register) {α β : Type}
    (post : Register × Register → α → β → Prop) :
    EStateM.Result Stop State α → EStateM.Result Stop State β → Prop
  | .ok a s, .ok b t => ∃ W', RegistersLe W W' ∧ InStep W' s t ∧ post W' a b
  | .error stop _, .error stop' _ => stop = stop'
  | _, _ => False

section

variable {W W' : Register × Register} {α β γ δ : Type}
  {post : Register × Register → α → β → Prop}

theorem Matches.of_le (h : RegistersLe W W') {outcome : EStateM.Result Stop State α}
    {outcome' : EStateM.Result Stop State β} (hmatch : Matches W' post outcome outcome') :
    Matches W post outcome outcome' := by
  cases outcome <;> cases outcome' <;> simp only [Matches] at hmatch ⊢
  · obtain ⟨W'', hle, hrest⟩ := hmatch
    exact ⟨W'', ⟨h.1.trans hle.1, h.2.trans hle.2⟩, hrest⟩
  · exact hmatch

theorem Matches.leaving {outcome : EStateM.Result Stop State α}
    {outcome' : EStateM.Result Stop State β} (h : Matches W post outcome outcome') (span : Span) :
    Matches W post (Eval.leaving span outcome) (Eval.leaving span outcome') := by
  cases outcome <;> cases outcome' <;> simp only [Matches, Eval.leaving] at h ⊢
  · obtain ⟨W', hle, hstep, hpost⟩ := h
    exact ⟨W', hle, ⟨hstep.left, hstep.right, congrArg (· - 1) hstep.depth⟩, hpost⟩
  · rw [h]

/-- One computation after another, against one that did not run out of fuel. -/
theorem Ends.bind_matches {mid : Register × Register → γ → δ → Prop} {first : Eval γ}
    {next : γ → Eval α} {first' : Nat → Nat → Eval δ} {next' : δ → Nat → Nat → Eval β}
    {s t : State} (hnot : ¬Eval.IsStarved ((first >>= next) s))
    (hfirst : ¬Eval.IsStarved (first s) → Ends first' t (Matches W mid (first s)))
    (hnext : ∀ W' a b s' t', RegistersLe W W' → InStep W' s' t' → mid W' a b →
      ¬Eval.IsStarved (next a s') → Ends (next' b) t' (Matches W' post (next a s'))) :
    Ends (fun n m => first' n m >>= fun b => next' b n m) t
      (Matches W post ((first >>= next) s)) := by
  have hnot' : ¬Eval.IsStarved (first s) := by
    rintro ⟨s', hs'⟩
    exact hnot ⟨s', Eval.bind_of_error hs'⟩
  refine (hfirst hnot').bind (fun b t' hmid => ?_) fun stop t' hmid => ?_
  · cases hrun : first s with
    | error stop s' =>
        rw [hrun] at hmid
        exact hmid.elim
    | ok a s' =>
        rw [hrun] at hmid
        rw [Eval.bind_of_ok hrun] at hnot ⊢
        obtain ⟨W', hle, hstep, hab⟩ := hmid
        exact (hnext W' a b s' t' hle hstep hab hnot).mono fun _ h => h.of_le hle
  · cases hrun : first s with
    | ok a s' =>
        rw [hrun] at hmid
        exact hmid.elim
    | error stop' s' =>
        rw [hrun] at hmid
        rw [Eval.bind_of_error hrun]
        exact hmid

end

section

variable {R : Realm} {W : Register × Register} {s t : State}

/-- Evaluating with this much fuel is matched on data that look the same. -/
def EvalMatches (R : Realm) (n : Nat) : Prop :=
  ∀ {W : Register × Register} {s t : State} {ρ ρ' : Env} {e : Expr}, InStep W s t →
    Env.Akin R W ρ ρ' → R.HasExpr e → ¬Eval.IsStarved (eval n R.setting ρ e s) →
      Ends (fun n _ => eval n R.setting ρ' e) t
        (Matches W (Value.Akin R) (eval n R.setting ρ e s))

theorem akin_comparison {c c' : Comparison}
    (h : c.SameKind (Value.Akin R W) (Env.Akin R W) c') :
    c.alike = c'.alike ∧ (c.Belongs R ∧ c.Listed W.1) ∧ c'.Belongs R ∧ c'.Listed W.2 := by
  cases h with
  | values ha hb =>
      refine ⟨?_, ⟨⟨ha.left, hb.left⟩, ha.listedLeft, hb.listedLeft⟩,
        ⟨ha.right, hb.right⟩, ha.listedRight, hb.listedRight⟩
      exact eq_of_equivalent Value.alike_comm Value.alike_trans ha.alike hb.alike
  | envs ha hb =>
      refine ⟨?_, ⟨⟨ha.left, hb.left⟩, ha.listedLeft, hb.listedLeft⟩,
        ⟨ha.right, hb.right⟩, ha.listedRight, hb.listedRight⟩
      exact eq_of_equivalent Env.alike_comm Env.alike_trans ha.alike hb.alike
  | tails ha hb =>
      obtain ⟨ha, haLeft, haRight, haListed, haListed'⟩ := ha
      obtain ⟨hb, hbLeft, hbRight, hbListed, hbListed'⟩ := hb
      simp only [Value.alike, Bool.and_eq_true] at ha hb
      simp only [Value.Belongs] at haLeft haRight hbLeft hbRight
      simp only [Value.Listed] at haListed haListed' hbListed hbListed'
      refine ⟨?_, ⟨⟨haLeft.2, hbLeft.2⟩, haListed.2.2, hbListed.2.2⟩,
        ⟨haRight.2, hbRight.2⟩, haListed'.2.2, hbListed'.2.2⟩
      exact eq_of_equivalent Thunk.alike_comm Thunk.alike_trans ha.2 hb.2

theorem akin_todo {todo todo' : List Comparison}
    (h : List.Forall₂ (Comparison.SameKind (Value.Akin R W) (Env.Akin R W)) todo todo') :
    todo.all Comparison.alike = todo'.all Comparison.alike ∧
      (∀ c ∈ todo, c.Belongs R ∧ c.Listed W.1) ∧ ∀ c ∈ todo', c.Belongs R ∧ c.Listed W.2 := by
  induction h with
  | nil => simp
  | cons hc _ ih =>
      obtain ⟨halike, hleft, hright⟩ := akin_comparison hc
      refine ⟨?_, List.forall_mem_cons.2 ⟨hleft, ih.2.1⟩, List.forall_mem_cons.2 ⟨hright, ih.2.2⟩⟩
      rw [List.all_cons, List.all_cons, halike, ih.1]

/-- Comparing is matched, and it changes nothing. -/
theorem compare_matches (heager : R.setting.policy = .eager) {n m : Nat} (hstep : InStep W s t)
    {todo todo' : List Comparison}
    (h : List.Forall₂ (Comparison.SameKind (Value.Akin R W) (Env.Akin R W)) todo todo')
    (hnot : ¬Eval.IsStarved (compareAll (eval n) m todo s)) :
    Ends (fun n m => compareAll (eval n) m todo') t
      (Matches W (fun _ => Eq) (compareAll (eval n) m todo s)) := by
  obtain ⟨halike, hleft, hright⟩ := akin_todo h
  have hpure : ∀ (n m : Nat), totalWeight todo < m →
      compareAll (eval n) m todo = pure (todo.all Comparison.alike) := fun n m hm =>
    compareAll_eq_alike (fun c hc => (hleft c hc).1.isEvaluated heager)
      (fun c hc => (hleft c hc).2) (eval n) m hm
  have hpure' : ∀ (n m : Nat), totalWeight todo' < m →
      compareAll (eval n) m todo' = pure (todo'.all Comparison.alike) := fun n m hm =>
    compareAll_eq_alike (fun c hc => (hright c hc).1.isEvaluated heager)
      (fun c hc => (hright c hc).2) (eval n) m hm
  -- The comparison on the left has ended, so it comes to what more fuel comes to.
  have hextends := compareAll_extends (fun setting ρ e => .refl (eval n setting ρ e))
    (Nat.le_max_left m (totalWeight todo + 1)) todo s
  rw [← hextends.resolve_left hnot, hpure n _ (by omega)]
  refine ⟨.ok (todo'.all Comparison.alike) t, Eval.not_isStarved_ok, ?_, totalWeight todo' + 1,
    fun n m _ hm => ?_⟩
  · exact ⟨W, ⟨.refl W.1, .refl W.2⟩, hstep, halike⟩
  · dsimp only
    rw [hpure' n m (by omega)]
    rfl

theorem force_matches {n : Nat} (hstep : InStep W s t) {x x' : Thunk} (h : Thunk.Akin R W x x') :
    Ends (fun n _ => force (eval n) x') t (Matches W (Value.Akin R) (force (eval n) x s)) := by
  obtain ⟨v, w, rfl, rfl, hv⟩ := h.exists_ready
  exact .of_eq (fun _ _ => rfl) Eval.not_isStarved_ok ⟨W, ⟨.refl W.1, .refl W.2⟩, hstep, hv⟩

/-- Under the eager policy every axis evaluates an expression at once. -/
theorem delay_matches (heager : R.setting.policy = .eager) {n : Nat} (hn : EvalMatches R n)
    (hstep : InStep W s t) {axis : Policy → Discipline}
    (haxis : axis = Policy.args ∨ axis = Policy.lists) {ρ ρ' : Env} (henv : Env.Akin R W ρ ρ')
    {e : Expr} (he : R.HasExpr e)
    (hnot : ¬Eval.IsStarved (delay (eval n) (axis R.setting.policy) R.setting ρ e s)) :
    Ends (fun n _ => delay (eval n) (axis R.setting.policy) R.setting ρ' e) t
      (Matches W (Thunk.Akin R) (delay (eval n) (axis R.setting.policy) R.setting ρ e s)) := by
  have hvalue : axis R.setting.policy = .value := by
    rw [heager]
    rcases haxis with rfl | rfl <;> rfl
  rw [hvalue] at hnot ⊢
  refine Ends.bind_matches hnot (fun hnot => hn hstep henv he hnot) ?_
  intro W' v w s' t' _ hstep' hv _
  exact .of_eq (fun _ _ => rfl) Eval.not_isStarved_ok
    ⟨W', ⟨.refl W'.1, .refl W'.2⟩, hstep', .ready hv⟩

/-- A new list cell or closure on both sides is listed under the next tags. -/
theorem freshTag_akin (hstep : InStep W s t) (make make' : Nat → Value)
    (h : ∀ {W' tag tag'}, RegistersLe W W' → W'.1.carrier tag = some (.inl (make tag)) →
      W'.2.carrier tag' = some (.inl (make' tag')) → Value.Akin R W' (make tag) (make' tag')) :
    ∃ W', RegistersLe W W' ∧
      InStep W' { s with store := s.store.freshTag.2 } { t with store := t.store.freshTag.2 } ∧
      Value.Akin R W' (make s.store.nextTag) (make' t.store.nextTag) := by
  let W' : Register × Register :=
    (W.1.add (.inl (make W.1.next)), W.2.add (.inl (make' W.2.next)))
  have hle : RegistersLe W W' := ⟨W.1.le_add _, W.2.le_add _⟩
  refine ⟨W', hle, ⟨congrArg (· + 1) hstep.left, congrArg (· + 1) hstep.right, hstep.depth⟩, ?_⟩
  rw [hstep.left, hstep.right]
  exact h hle (W.1.carrier_add _) (W.2.carrier_add _)

/-- New list cells with parts that look the same. -/
theorem cell_akin (hstep : InStep W s t) {x x' y y' : Thunk} (hhead : Thunk.Akin R W x x')
    (htail : Thunk.Akin R W y y') (hlist : y.IsTail) (hlist' : y'.IsTail) :
    ∃ W', RegistersLe W W' ∧
      InStep W' { s with store := s.store.freshTag.2 } { t with store := t.store.freshTag.2 } ∧
      Value.Akin R W' (.cons s.store.nextTag x y) (.cons t.store.nextTag x' y') := by
  refine freshTag_akin hstep (.cons · x y) (.cons · x' y') ?_
  intro W' tag tag' hle hcarrier hcarrier'
  have hhead' := hhead.mono (fun h _ hx => hx.mono h.carrier) hle
  have htail' := htail.mono (fun h _ hx => hx.mono h.carrier) hle
  constructor <;> simp only [Value.alike, Value.Belongs, Value.Listed, Bool.and_eq_true]
  · exact ⟨hhead.alike, htail.alike⟩
  · exact ⟨hhead.left, htail.left, hlist⟩
  · exact ⟨hhead.right, htail.right, hlist'⟩
  · exact ⟨hcarrier, hhead'.listedLeft, htail'.listedLeft⟩
  · exact ⟨hcarrier', hhead'.listedRight, htail'.listedRight⟩

/-- New closures of one function in environments that look the same. -/
theorem closure_akin (hstep : InStep W s t) {lambda : Lambda} (he : R.HasExpr lambda.expr)
    {ρ ρ' : Env} (henv : Env.Akin R W ρ ρ') :
    ∃ W', RegistersLe W W' ∧
      InStep W' { s with store := s.store.freshTag.2 } { t with store := t.store.freshTag.2 } ∧
      Value.Akin R W' (.closure s.store.nextTag lambda ρ) (.closure t.store.nextTag lambda ρ') := by
  refine freshTag_akin hstep (.closure · lambda ρ) (.closure · lambda ρ') ?_
  intro W' tag tag' hle hcarrier hcarrier'
  have henv' := henv.mono (fun h _ hρ => hρ.mono h.carrier) hle
  constructor <;>
    simp only [Value.alike, Value.Belongs, Value.Listed, Bool.and_eq_true, decide_true, true_and]
  · exact henv.alike
  · exact ⟨he, henv.left⟩
  · exact ⟨he, henv.right⟩
  · exact ⟨hcarrier, henv'.listedLeft⟩
  · exact ⟨hcarrier', henv'.listedRight⟩

theorem extend_alike (store store' : Store) {ρ ρ' : Env} (hρ : ρ.alike ρ' = true)
    {bs bs' : List (Name × Thunk)}
    (hbs : List.Forall₂ (fun b b' => b.1 = b'.1 ∧ Thunk.Akin R W b.2 b'.2) bs bs') :
    (store.extend ρ bs).1.alike (store'.extend ρ' bs').1 = true := by
  induction hbs with
  | nil => exact hρ
  | cons hb _ ih => simp [Store.extend, Env.alike, hb.1, hb.2.alike, ih, Name.same]

/-- New frames on both sides are listed under the next tags. -/
theorem extend_akin (hstep : InStep W s t) {ρ ρ' : Env} (hρ : Env.Akin R W ρ ρ')
    {bs bs' : List (Name × Thunk)}
    (hbs : List.Forall₂ (fun b b' => b.1 = b'.1 ∧ Thunk.Akin R W b.2 b'.2) bs bs')
    (hnames : ∀ b ∈ bs, R.name b.1 ∧ b.2.Belongs R)
    (hnames' : ∀ b ∈ bs', R.name b.1 ∧ b.2.Belongs R) :
    ∃ W', RegistersLe W W' ∧
      InStep W' { s with store := (s.store.extend ρ bs).2 }
        { t with store := (t.store.extend ρ' bs').2 } ∧
      Env.Akin R W' (s.store.extend ρ bs).1 (t.store.extend ρ' bs').1 := by
  have hlisted : (∀ b ∈ bs, b.2.Listed W.1) ∧ ∀ b ∈ bs', b.2.Listed W.2 := by
    clear hnames hnames'
    induction hbs with
    | nil => simp
    | cons hb _ ih =>
        exact ⟨List.forall_mem_cons.2 ⟨hb.2.listedLeft, ih.1⟩,
          List.forall_mem_cons.2 ⟨hb.2.listedRight, ih.2⟩⟩
  obtain ⟨r, hle, hnext, hleft⟩ :=
    s.store.extend_listed hstep.left.symm hρ.listedLeft hlisted.1
  obtain ⟨r', hle', hnext', hright⟩ :=
    t.store.extend_listed hstep.right.symm hρ.listedRight hlisted.2
  refine ⟨(r, r'), ⟨hle, hle'⟩, ⟨hnext.symm, hnext'.symm, hstep.depth⟩, ?_⟩
  exact ⟨extend_alike _ _ hρ.alike hbs, s.store.extend_belongs hρ.left hnames,
    t.store.extend_belongs hρ.right hnames', hleft, hright⟩

/-- Related plans of one program are matched. -/
theorem run_matches (hR : R.IsCoherent) (heager : R.setting.policy = .eager) {n m : Nat}
    (hn : EvalMatches R n) {α β : Type} {W : (akinKinship R hR).World}
    {post : (akinKinship R hR).World → α → β → Prop} {left : α → Prop} {right : β → Prop}
    {p : Plan α} {q : Plan β}
    (hrel : Plan.Related (akinKinship R hR) post W p q) (hp : p.Abides R left)
    (hq : q.Abides R right) (hstep : InStep W s t)
    (hnot : ¬Eval.IsStarved (p.run (eval n) m s)) :
    Ends (fun n m => q.run (eval n) m) t (Matches W post (p.run (eval n) m s)) := by
  induction hrel generalizing s t with
  | @done W _ _ h =>
      exact .of_eq (fun _ _ => rfl) Eval.not_isStarved_ok ⟨W, ⟨.refl W.1, .refl W.2⟩, hstep, h⟩
  | fail h =>
      rw [h trivial]
      exact .of_eq (fun _ _ => rfl) Eval.not_isStarved_fault rfl
  | @count W step p q _ ih =>
      cases hp with
      | count _ hp =>
          cases hq with
          | count _ hq =>
              have hcounted : InStep W { s with counters := step s.counters }
                  { t with counters := step t.counters } :=
                ⟨hstep.left, hstep.right, hstep.depth⟩
              exact (ih hp hq hcounted hnot).congr fun _ _ => rfl
  | eval henv _ ih =>
      cases hp with
      | eval _ he hp =>
          cases hq with
          | eval _ _ hq =>
              refine Ends.bind_matches hnot (fun hnot => hn hstep henv he hnot) ?_
              intro W' v w s' t' hle hstep' hv hnot'
              exact ih W' hle v w hv (hp v hv.left) (hq w hv.right) hstep' hnot'
  | force hthunk _ ih =>
      cases hp with
      | force _ hp =>
          cases hq with
          | force _ hq =>
              refine Ends.bind_matches hnot (fun _ => force_matches hstep hthunk) ?_
              intro W' v w s' t' hle hstep' hv hnot'
              exact ih W' hle v w hv (hp v hv.left) (hq w hv.right) hstep' hnot'
  | delay haxis henv _ ih =>
      cases hp with
      | delay _ _ he hp =>
          cases hq with
          | delay _ _ _ hq =>
              refine Ends.bind_matches hnot (delay_matches heager hn hstep haxis henv he) ?_
              intro W' x x' s' t' hle hstep' hx hnot'
              exact ih W' hle x x' hx (hp x hx.left) (hq x' hx.right) hstep' hnot'
  -- A new object is listed first, so that what follows runs in registers that know it.
  | cell hhead htail _ _ ih =>
      cases hp with
      | cell _ _ hlist hp =>
          cases hq with
          | cell _ _ hlist' hq =>
              obtain ⟨W', hle, hstep', hv⟩ := cell_akin hstep hhead htail hlist hlist'
              have hnext := ih W' hle _ _ hv (hp _ hv.left) (hq _ hv.right) hstep' hnot
              exact (hnext.congr fun _ _ => rfl).mono fun _ h => h.of_le hle
  | closure henv _ ih =>
      cases hp with
      | closure he _ hp =>
          cases hq with
          | closure _ _ hq =>
              obtain ⟨W', hle, hstep', hv⟩ := closure_akin hstep he henv
              have hnext := ih W' hle _ _ hv (hp _ hv.left) (hq _ hv.right) hstep' hnot
              exact (hnext.congr fun _ _ => rfl).mono fun _ h => h.of_le hle
  | extend henv hbs _ ih =>
      cases hp with
      | extend _ hnames hp =>
          cases hq with
          | extend _ hnames' hq =>
              obtain ⟨W', hle, hstep', hρ⟩ := extend_akin hstep henv hbs hnames hnames'
              have hnext := ih W' hle _ _ hρ (hp _ hρ.left) (hq _ hρ.right) hstep' hnot
              exact (hnext.congr fun _ _ => rfl).mono fun _ h => h.of_le hle
  | compare htodo _ ih =>
      cases hp with
      | compare _ _ hp =>
          cases hq with
          | compare _ _ hq =>
              refine Ends.bind_matches hnot
                (fun hnot => compare_matches heager hstep htodo hnot) ?_
              rintro W' b b' s' t' hle hstep' rfl hnot'
              exact ih W' hle b (hp b) (hq b) hstep' hnot'

/-- Evaluating is matched on data that look the same. -/
theorem eval_matches (hR : R.IsCoherent) (heager : R.setting.policy = .eager) (n : Nat) :
    EvalMatches R n := by
  induction n with
  | zero =>
      intro W s t ρ ρ' e _ _ _ hnot
      exact absurd ⟨s, rfl⟩ hnot
  | succ n ih =>
      intro W s t ρ ρ' e hstep henv he hnot
      have hrel := Kinship.plan_related (K := akinKinship R hR) (W := W) henv e
      have hp := Realm.plan_abides henv.left he
      have hq := Realm.plan_abides henv.right he
      -- Both sides are nested equally deep, so the limit stops both of them or none.
      cases henter : s.depth.enter R.setting.maxDepth with
      | error limit =>
          have henter' : t.depth.enter R.setting.maxDepth = .error limit := by
            rw [Depth.enter_eq_error_iff] at henter ⊢
            exact ⟨henter.1, hstep.depth ▸ henter.2⟩
          refine .eval_exceeds henter' ?_
          rw [eval_of_enter_eq_error henter]
          exact rfl
      | ok depth =>
          have hroom := (Depth.enter_eq_ok.1 henter).1
          have hroom' : t.depth.HasRoom R.setting.maxDepth := by
            intro limit hlimit
            rw [← hstep.depth]
            exact hroom limit hlimit
          have hentered : InStep W s.entered t.entered :=
            ⟨hstep.left, hstep.right, congrArg (· + 1) hstep.depth⟩
          rw [eval_eq_leaving_run hroom] at hnot ⊢
          rw [Eval.isStarved_leaving_iff] at hnot
          refine .eval hroom' ((run_matches hR heager ih hrel hp hq hentered hnot).mono ?_)
          exact fun outcome h => h.leaving e.span

end

/-! ## Texts of evaluated values -/

section

variable {R : Realm} {W : Register × Register} (hR : R.IsCoherent)
include hR

theorem renderSpine_akin {printDepth room : Nat}
    (hitem : ∀ {v w : Value}, Value.Akin R W v w → ∃ text, ∀ ev,
      renderIn ev printDepth room v = pure text ∧ renderIn ev printDepth room w = pure text)
    (left : Nat) (isFirst : Bool) (out : String) {v w : Value} (h : Value.Akin R W v w) :
    ∃ text, ∀ ev,
      renderSpine ev (renderIn ev printDepth room) isFirst out left v = pure text ∧
        renderSpine ev (renderIn ev printDepth room) isFirst out left w = pure text := by
  induction left generalizing isFirst out v w with
  | zero =>
      cases h.layer hR with
      | atom hatom => cases v <;> first | exact hatom.elim | exact ⟨_, fun _ => ⟨rfl, rfl⟩⟩
      | closure | cons => exact ⟨_, fun _ => ⟨rfl, rfl⟩⟩
  | succ left ih =>
      cases h.layer hR with
      | closure => exact ⟨_, fun _ => ⟨rfl, rfl⟩⟩
      | atom hatom => cases v <;> first | exact hatom.elim | exact ⟨_, fun _ => ⟨rfl, rfl⟩⟩
      | cons hhead htail =>
          obtain ⟨u, u', rfl, rfl, hu⟩ := hhead.exists_ready
          obtain ⟨z, z', rfl, rfl, hz⟩ := htail.exists_ready
          have hlist := h.left
          have hlist' := h.right
          simp only [Value.Belongs, Thunk.IsTail] at hlist hlist'
          obtain ⟨element, helement⟩ := hitem hu
          obtain ⟨text, htext⟩ :=
            ih false ((if isFirst then out else out ++ " ") ++ element) hz
          refine ⟨text, fun ev => ?_⟩
          simp only [renderSpine, force, forceTail, pure_bind, (helement ev).1, (helement ev).2,
            asTail, hlist.2.2, hlist'.2.2, if_true, Eval.lift]
          exact htext ev

/-- Values that look the same have the same text, and rendering them needs no evaluation. -/
theorem renderIn_akin (printDepth room : Nat) {v w : Value} (h : Value.Akin R W v w) :
    ∃ text, ∀ ev,
      renderIn ev printDepth room v = pure text ∧ renderIn ev printDepth room w = pure text := by
  induction room generalizing v w with
  | zero =>
      cases h.layer hR with
      | closure | cons => exact ⟨_, fun _ => ⟨rfl, rfl⟩⟩
      | atom hatom =>
          cases v with
          | closure | cons => exact hatom.elim
          | bool b => cases b <;> exact ⟨_, fun _ => ⟨rfl, rfl⟩⟩
          | int | prim | nil => exact ⟨_, fun _ => ⟨rfl, rfl⟩⟩
  | succ room ih =>
      have hspine := renderSpine_akin hR (fun h => ih h) printDepth true "(" h
      cases h.layer hR with
      | closure => exact ⟨_, fun _ => ⟨rfl, rfl⟩⟩
      | cons => exact hspine
      | atom hatom =>
          cases v with
          | closure | cons => exact hatom.elim
          | bool b => cases b <;> exact ⟨_, fun _ => ⟨rfl, rfl⟩⟩
          | int | prim => exact ⟨_, fun _ => ⟨rfl, rfl⟩⟩
          | nil => exact hspine

end

/-! ## What compares as equal -/

/-- With enough fuel, comparing the values on a store says that they are equal. -/
def Value.Equals (store : Store) (v w : Value) : Prop :=
  ∃ enough, ∀ fuel, enough ≤ fuel → ((equal (eval fuel) fuel v w).report store).result = .ok true

/-- The environments bind the same names, in the same order, to values that compare as equal. -/
inductive Env.Equals (store : Store) : Env → Env → Prop
  | empty : Equals store .empty .empty
  | frame {tag tag' : Nat} {name name' : Name} {v w : Value} {rest rest' : Env}
      (hname : name.same name' = true) (hvalue : v.Equals store w)
      (hrest : Equals store rest rest') :
      Equals store (.frame tag name (.ready v) rest) (.frame tag' name' (.ready w) rest')

/-- Evaluated values that one register lists compare as equal if and only if they look the same. -/
theorem Value.equals_iff {r : Register} {v w : Value} (hv : v.IsEvaluated) (hw : w.IsEvaluated)
    (hlisted : v.Listed r) (hlisted' : w.Listed r) (store : Store) :
    v.Equals store w ↔ v.alike w = true := by
  have hcompare : ∀ fuel, totalWeight [.values v w] < fuel →
      ((equal (eval fuel) fuel v w).report store).result = .ok (v.alike w) := by
    intro fuel hfuel
    have heval : ∀ c ∈ [Comparison.values v w], c.IsEvaluated := by
      simpa [Comparison.IsEvaluated] using ⟨hv, hw⟩
    have htodo : ∀ c ∈ [Comparison.values v w], c.Listed r := by
      simpa [Comparison.Listed] using ⟨hlisted, hlisted'⟩
    unfold equal
    rw [compareAll_eq_alike heval htodo (eval fuel) fuel hfuel]
    simp only [List.all_cons, List.all_nil, Bool.and_true, Comparison.alike]
    rfl
  constructor
  · rintro ⟨enough, hequal⟩
    have h := hcompare (max enough (totalWeight [.values v w] + 1)) (by omega)
    rw [hequal _ (Nat.le_max_left _ _)] at h
    exact (Except.ok.inj h).symm
  · intro h
    refine ⟨totalWeight [.values v w] + 1, fun fuel hfuel => ?_⟩
    rw [hcompare fuel (by omega), h]

theorem Env.Equals.alike {r : Register} {store : Store} {ρ ρ' : Env} (h : ρ.Equals store ρ')
    (hρ : ρ.IsEvaluated) (hρ' : ρ'.IsEvaluated) (hlisted : ρ.Listed r) (hlisted' : ρ'.Listed r) :
    ρ.alike ρ' = true := by
  induction h with
  | empty => simp [Env.alike]
  | frame hname hvalue _ ih =>
      simp only [Env.IsEvaluated, Thunk.IsEvaluated] at hρ hρ'
      simp only [Env.Listed, Thunk.Listed] at hlisted hlisted'
      have hvalues := (Value.equals_iff hρ.1 hρ'.1 hlisted.2.1 hlisted'.2.1 _).1 hvalue
      simp [Env.alike, Thunk.alike, hname, hvalues, ih hρ.2 hρ'.2 hlisted.2.2 hlisted'.2.2]

/-! ## Interchange -/

/-- With enough fuel the computation has the given outcome. -/
def ComesTo (body : Nat → Eval Value) (s : State) (outcome : EStateM.Result Stop State Value) :
    Prop :=
  ∃ enough, ∀ fuel, enough ≤ fuel → body fuel s = outcome

/-- Two computations, from two states, whose outcomes nothing tells apart.  The results are equal if
the second computation starts when the first one has ended, so that its new objects have tags of
their own. -/
inductive SameOutcome (left right : Nat → Eval Value) (s t : State) : Prop
  /-- Both go on forever. -/
  | diverge (hleft : ∀ fuel, Eval.IsStarved (left fuel s))
      (hright : ∀ fuel, Eval.IsStarved (right fuel t))
  /-- Both fail, for the same cause and with the same span. -/
  | fail (f : Fault) (s' t' : State) (hleft : ComesTo left s (.error (.fault f) s'))
      (hright : ComesTo right t (.error (.fault f) t'))
  /-- Both succeed, with values that are equal and have the same text under every print depth. -/
  | succeed (v w : Value) (s' t' : State) (hleft : ComesTo left s (.ok v s'))
      (hright : ComesTo right t (.ok w t'))
      (hequal : s'.store.nextTag ≤ t.store.nextTag → ∀ store, v.Equals store w)
      (htext : ∀ printDepth, ∃ text, ∀ fuel u,
        renderValue (eval fuel) printDepth v u = .ok text u ∧
          renderValue (eval fuel) printDepth w u = .ok text u)

section

variable {R : Realm} {r : Register} {s t : State}

/-- The registers with which two computations start that know the same objects. -/
def startRegisters (hs : r.next ≤ s.store.nextTag) (ht : r.next ≤ t.store.nextTag) :
    Register × Register :=
  (r.raise s.store.nextTag hs, r.raise t.store.nextTag ht)

/-- If the tags given on the right are not given on the left, one register lists both sides. -/
theorem join_listed (hs : r.next ≤ s.store.nextTag) (ht : r.next ≤ t.store.nextTag)
    {W : Register × Register} (hle : RegistersLe (startRegisters hs ht) W)
    (hnext : W.1.next ≤ t.store.nextTag) {tag : Nat} {object : Value ⊕ Env}
    (h : W.2.carrier tag = some object) : (W.1.join W.2).carrier tag = some object := by
  refine Option.or_eq_some_iff.2 ?_
  by_cases hold : tag < t.store.nextTag
  · -- The object was known before, on both sides.
    have hboth : r.carrier tag = some object := (hle.2.carrier_eq tag hold).symm.trans h
    exact .inl (hle.1.carrier hboth)
  · refine .inr ⟨?_, h⟩
    cases hleft : W.1.carrier tag with
    | none => rfl
    | some object' => exact absurd (W.1.lt_next hleft) (by omega)

/-- A plan that was followed to its end comes to that end with more fuel as well. -/
theorem comesTo_of_run {p : Plan Value} {n : Nat} (h : ¬Eval.IsStarved (p.run (eval n) n s)) :
    ComesTo (fun fuel => p.run (eval fuel) fuel) s (p.run (eval n) n s) := by
  obtain ⟨outcome, -, rfl, N, hN⟩ := ends_of_run h
  exact ⟨N, fun fuel hfuel => hN fuel fuel hfuel hfuel⟩

theorem Akin.swap {α : Type} {alike : α → α → Bool} {belongs : α → Prop}
    {listed : Register → α → Prop} (hcomm : ∀ a b, alike a b = alike b a)
    {W : Register × Register} {a b : α} (h : Akin alike belongs listed W a b) :
    Akin alike belongs listed W.swap b a :=
  ⟨(hcomm b a).trans h.alike, h.right, h.left, h.listedRight, h.listedLeft⟩

/-- Plans that are related both ways have outcomes that nothing tells apart. -/
theorem sameOutcome_of_related (hR : R.IsCoherent) (heager : R.setting.policy = .eager)
    (hs : r.next ≤ s.store.nextTag) (ht : r.next ≤ t.store.nextTag)
    (hdepth : s.depth.current = t.depth.current) {p q : Plan Value}
    (hrel : Plan.Related (akinKinship R hR) (Value.Akin R) (startRegisters hs ht) p q)
    (hrel' : Plan.Related (akinKinship R hR) (Value.Akin R) (startRegisters ht hs) q p)
    (hp : p.Abides R (Value.Belongs R)) (hq : q.Abides R (Value.Belongs R)) :
    SameOutcome (fun fuel => p.run (eval fuel) fuel) (fun fuel => q.run (eval fuel) fuel) s t := by
  have hstep : InStep (startRegisters hs ht) s t := ⟨rfl, rfl, hdepth⟩
  have hstep' : InStep (startRegisters ht hs) t s := ⟨rfl, rfl, hdepth.symm⟩
  by_cases hended : ∃ n, ¬Eval.IsStarved (p.run (eval n) n s)
  · obtain ⟨n, hnot⟩ := hended
    have hleft := comesTo_of_run hnot
    obtain ⟨outcome, hstarved, hmatch, N, hN⟩ :=
      run_matches hR heager (eval_matches hR heager n) hrel hp hq hstep hnot
    have hright : ComesTo (fun fuel => q.run (eval fuel) fuel) t outcome :=
      ⟨N, fun fuel hfuel => hN fuel fuel hfuel hfuel⟩
    cases hrun : p.run (eval n) n s with
    | error stop s' =>
        rw [hrun] at hleft hmatch hnot
        cases outcome with
        | ok w t' => exact hmatch.elim
        | error stop' t' =>
            cases stop with
            | outOfFuel => exact absurd ⟨s', rfl⟩ hnot
            | fault f =>
                cases hmatch
                exact .fail f s' t' hleft hright
    | ok v s' =>
        rw [hrun] at hleft hmatch
        cases outcome with
        | error stop' t' => exact hmatch.elim
        | ok w t' =>
            obtain ⟨W, hle, hstep'', hv⟩ := hmatch
            refine .succeed v w s' t' hleft hright (fun hnext store => ?_) fun printDepth => ?_
            · rw [hstep''.left] at hnext
              have hlisted : v.Listed (W.1.join W.2) := hv.listedLeft.mono fun hobject =>
                Option.or_eq_some_iff.2 (.inl hobject)
              have hlisted' : w.Listed (W.1.join W.2) :=
                hv.listedRight.mono (join_listed hs ht hle hnext)
              exact (Value.equals_iff (hv.left.isEvaluated heager) (hv.right.isEvaluated heager)
                hlisted hlisted' store).2 hv.alike
            · obtain ⟨text, htext⟩ := renderIn_akin hR printDepth printDepth hv
              refine ⟨text, fun fuel u => ?_⟩
              unfold renderValue
              rw [(htext (eval fuel)).1, (htext (eval fuel)).2]
              exact ⟨rfl, rfl⟩
  · refine .diverge (fun fuel => ?_) fun fuel => ?_
    · exact Classical.byContradiction fun h => hended ⟨fuel, h⟩
    · -- What ends on the right ends on the left.
      refine Classical.byContradiction fun hnot => hended ?_
      obtain ⟨outcome, hstarved, -, N, hN⟩ :=
        run_matches hR heager (eval_matches hR heager fuel) hrel' hq hp hstep' hnot
      have hrun := hN N N (Nat.le_refl N) (Nat.le_refl N)
      dsimp only at hrun
      exact ⟨N, by rw [hrun]; exact hstarved⟩

end

/-- Equal values are interchangeable under the eager policy, whatever the limit of nesting.

Let two environments of evaluated values of one program bind the same names, in the same order, to
values that compare as equal.  An expression of that program goes on forever in both, fails in both
for the same cause and with the same span, or yields in both values that compare as equal and have
the same text under every print depth.  Likewise, closures that compare as equal can be called for
each other, with any arguments. -/
theorem equals_interchange (R : Realm) (hR : R.IsCoherent) (heager : R.setting.policy = .eager)
    (r : Register) (s t : State) (hs : r.next ≤ s.store.nextTag) (ht : r.next ≤ t.store.nextTag)
    (hdepth : s.depth.current = t.depth.current) (store : Store) (ρ ρ' : Env)
    (hρ : ρ.Belongs R) (hρ' : ρ'.Belongs R) (hlisted : ρ.Listed r) (hlisted' : ρ'.Listed r)
    (hequal : ρ.Equals store ρ') :
    (∀ e, R.HasExpr e →
      SameOutcome (fun fuel => eval fuel R.setting ρ e) (fun fuel => eval fuel R.setting ρ' e)
        s t) ∧
    ∀ (tag tag' : Nat) (f g : Lambda) (σ σ' : Env) (args : List Expr),
      let left := Value.closure tag f σ
      let right := Value.closure tag' g σ'
      left.Belongs R → right.Belongs R → left.Listed r → right.Listed r →
        left.Equals store right → (∀ arg ∈ args, R.HasExpr arg) →
          SameOutcome (fun fuel => callClosure (eval fuel) R.setting ρ f σ args)
            (fun fuel => callClosure (eval fuel) R.setting ρ' g σ' args) s t := by
  have halike := hequal.alike (hρ.isEvaluated heager) (hρ'.isEvaluated heager) hlisted hlisted'
  have henv : Env.Akin R (startRegisters hs ht) ρ ρ' :=
    ⟨halike, hρ, hρ', hlisted.mono (r.le_raise hs).carrier, hlisted'.mono (r.le_raise ht).carrier⟩
  have henv' : Env.Akin R (startRegisters ht hs) ρ' ρ := henv.swap Env.alike_comm
  constructor
  · intro e he
    have hp : (Plan.eval R.setting ρ e .done).Abides R (Value.Belongs R) :=
      .eval hρ he fun _ hv => .done hv
    have hq : (Plan.eval R.setting ρ' e .done).Abides R (Value.Belongs R) :=
      .eval hρ' he fun _ hv => .done hv
    have hsame := sameOutcome_of_related hR heager hs ht hdepth
      (Kinship.eval_related (K := akinKinship R hR) henv e)
      (Kinship.eval_related (K := akinKinship R hR) henv' e) hp hq
    simpa only [akinKinship, Plan.run, bind_pure] using hsame
  · intro tag tag' f g σ σ' args left right hleft hright hlistedLeft hlistedRight hcallees hargs
    have hcallee := (Value.equals_iff (hleft.isEvaluated heager) (hright.isEvaluated heager)
      hlistedLeft hlistedRight store).1 hcallees
    have hv : Value.Akin R (startRegisters hs ht) left right :=
      ⟨hcallee, hleft, hright, hlistedLeft.mono (r.le_raise hs).carrier,
        hlistedRight.mono (r.le_raise ht).carrier⟩
    have hsame := sameOutcome_of_related hR heager hs ht hdepth
      (Kinship.call_related (K := akinKinship R hR) henv hv args)
      (Kinship.call_related (K := akinKinship R hR) henv' (hv.swap Value.alike_comm) args)
      (Realm.call_abides hρ hleft hargs) (Realm.call_abides hρ' hright hargs)
    have hrun := fun fuel => run_callPlan (eval fuel) fuel R.setting ρ left args
    have hrun' := fun fuel => run_callPlan (eval fuel) fuel R.setting ρ' right args
    simpa only [akinKinship, hrun, hrun'] using hsame

/-- The tree of `let f := map x to x + 1; in f(1)`, with the function and the call in it. -/
def successorTree : Expr × Lambda × Expr :=
  let f : Name := ⟨1, "f"⟩
  let x : Binder := ⟨⟨2, "x"⟩, ⟨13, 14⟩⟩
  let successor : Lambda := ⟨⟨3, ⟨9, 23⟩⟩, [x],
    .binary ⟨2, ⟨18, 23⟩⟩ .add (.ident ⟨0, ⟨18, 19⟩⟩ x.name) (.int ⟨1, ⟨22, 23⟩⟩ 1)⟩
  let call : Expr := .call ⟨6, ⟨28, 32⟩⟩ (.ident ⟨4, ⟨28, 29⟩⟩ f) [.int ⟨5, ⟨30, 31⟩⟩ 1]
  (.letIn ⟨7, ⟨0, 32⟩⟩ [(⟨f, ⟨4, 5⟩⟩, successor.expr)] call, successor, call)

/-- Two closures of that function, each with tags of its own, are equal, and the call yields the same
for both. -/
theorem equals_interchange_successor :
    let setting : Setting := ⟨.eager, some 9⟩
    let closure (tag : Nat) : Value := .closure tag successorTree.2.1 .empty
    let ρ (tag : Nat) : Env := .frame (tag + 1) ⟨1, "f"⟩ (.ready (closure tag)) .empty
    (ρ 0).Equals .empty (ρ 2) ∧
      SameOutcome (fun fuel => eval fuel setting (ρ 0) successorTree.2.2)
        (fun fuel => eval fuel setting (ρ 2) successorTree.2.2)
        (State.start ⟨#[], 4⟩) (State.start ⟨#[], 9⟩) := by
  intro setting closure ρ
  have hread : Expr.ofSourceWith .empty "let f := map x to x + 1; in f(1)" =
      .ok (successorTree.1, ⟨#["", "f", "x"]⟩) := by with_unfolding_all rfl
  let R := Realm.ofSource setting _ successorTree.1 (Expr.fits_of_ofSourceWith hread).1
  let r : Register := {
    next := 4
    carrier := fun
      | 0 => some (.inl (closure 0))
      | 1 => some (.inr (ρ 0))
      | 2 => some (.inl (closure 2))
      | 3 => some (.inr (ρ 2))
      | _ => none
    lt_next := by
      intro tag object h
      split at h <;> first | omega | cases h }
  have hroot : R.HasExpr successorTree.1 := fun _ hd => hd
  have hfunction : R.HasExpr successorTree.2.1.expr :=
    hroot.part (by simp [successorTree, Expr.parts])
  have hcall : R.HasExpr successorTree.2.2 := hroot.part (by simp [successorTree, Expr.parts])
  have hname : R.name ⟨1, "f"⟩ := ⟨by decide +kernel, by decide +kernel⟩
  have hbelongs : ∀ tag, (ρ tag).Belongs R := by
    intro tag
    simp only [ρ, closure, Env.Belongs, Thunk.Belongs, Value.Belongs]
    exact ⟨hname, ⟨hfunction, trivial⟩, trivial⟩
  have hlisted : (ρ 0).Listed r ∧ (ρ 2).Listed r := by
    simp only [ρ, closure, Env.Listed, Thunk.Listed, Value.Listed]
    exact ⟨⟨rfl, ⟨rfl, trivial⟩, trivial⟩, rfl, ⟨rfl, trivial⟩, trivial⟩
  have hequal : (ρ 0).Equals .empty (ρ 2) := by
    have hvalues := hlisted
    simp only [ρ, Env.Listed, Thunk.Listed] at hvalues
    refine .frame rfl ?_ .empty
    refine (Value.equals_iff ?_ ?_ hvalues.1.2.1 hvalues.2.2.1 .empty).2 ?_
    · simp only [closure, Value.IsEvaluated, Env.IsEvaluated]
    · simp only [closure, Value.IsEvaluated, Env.IsEvaluated]
    · simp [closure, Value.alike, Env.alike]
  refine ⟨hequal, ?_⟩
  have hinterchange := equals_interchange R (Realm.ofSource_isCoherent setting hread) rfl r
    (State.start ⟨#[], 4⟩) (State.start ⟨#[], 9⟩) (Nat.le_refl 4) (show 4 ≤ 9 by decide) rfl .empty
    (ρ 0) (ρ 2) (hbelongs 0) (hbelongs 2) hlisted.1 hlisted.2 hequal
  exact hinterchange.1 _ hcall

end PolicyEval
