import PolicyEval.Proofs.Eval.Cells
import PolicyEval.Proofs.Eval.Composition
import PolicyEval.Proofs.Eval.Fuel
import PolicyEval.Proofs.Eval.Kinship

/-!
# Evaluations with and without a limit

An evaluation with a limit goes on like one without as long as it stays within the limit: it makes
the same objects with the same tags in the same cells, and what it delays differs only in the limit
that is written into it.  When the evaluation without a limit goes deeper, the other one fails.

* `Value.Recasts`, `Thunk.Recasts`, `Env.Recasts` — the same data under a limit.
* `State.Matches` — states that are the same but for such data.
* `Confines` — a computation under the limit goes on like one without, or fails at the limit.
* `eval_confines`, `run_confines` — evaluations and plans under the limit do.
-/

namespace PolicyEval

/-! ## The same data under a limit -/

section

variable (base limit : Nat) (policy : Policy)

mutual
/-- The same value, made under a limit.  Store cells are those from the address `base` on. -/
inductive Value.Recasts : Value → Value → Prop
  | atom {v : Value} (h : v.IsAtom) : Value.Recasts v v
  | closure {tag : Nat} {lambda : Lambda} {ρ ρ' : Env} (henv : Env.Recasts ρ ρ') :
      Value.Recasts (.closure tag lambda ρ) (.closure tag lambda ρ')
  | cons {tag : Nat} {x x' y y' : Thunk} (hhead : Thunk.Recasts x x')
      (htail : Thunk.Recasts y y') : Value.Recasts (.cons tag x y) (.cons tag x' y')

/-- The same thunk, made under a limit. -/
inductive Thunk.Recasts : Thunk → Thunk → Prop
  | ready {v v' : Value} (h : Value.Recasts v v') : Thunk.Recasts (.ready v) (.ready v')
  | byName {ρ ρ' : Env} {e : Expr} (henv : Env.Recasts ρ ρ') :
      Thunk.Recasts (.byName ⟨⟨policy, none⟩, ρ, e⟩) (.byName ⟨⟨policy, some limit⟩, ρ', e⟩)
  | byNeed {address : Nat} {ρ ρ' : Env} {e : Expr} (hbase : base ≤ address)
      (henv : Env.Recasts ρ ρ') :
      Thunk.Recasts (.byNeed address ⟨⟨policy, none⟩, ρ, e⟩)
        (.byNeed address ⟨⟨policy, some limit⟩, ρ', e⟩)

/-- The same bindings, made under a limit. -/
inductive Env.Recasts : Env → Env → Prop
  | empty : Env.Recasts .empty .empty
  | frame {tag : Nat} {name : Name} {x x' : Thunk} {rest rest' : Env}
      (hbound : Thunk.Recasts x x') (hrest : Env.Recasts rest rest') :
      Env.Recasts (.frame tag name x rest) (.frame tag name x' rest')
end

/-- The same data without and with a limit; failures are the same too. -/
def recastKinship : Kinship where
  World := Unit
  le _ _ := True
  left := ⟨policy, none⟩
  right := ⟨policy, some limit⟩
  strict := True
  value _ := Value.Recasts base limit policy
  thunk _ := Thunk.Recasts base limit policy
  env _ := Env.Recasts base limit policy
  todo _ := List.Forall₂
    (Comparison.SameKind (Value.Recasts base limit policy) (Env.Recasts base limit policy))
  refl _ := trivial
  trans _ _ := trivial
  value_mono _ h := h
  thunk_mono _ h := h
  env_mono _ h := h
  todo_mono _ h := h
  atom h := .atom h
  empty := .empty
  value_layer h := by
    cases h with
    | atom h => exact .atom h
    | closure henv => exact .closure henv
    | cons hhead htail => exact .cons hhead htail
  env_layer h := by
    cases h with
    | empty => exact .empty
    | frame hbound hrest => exact .frame hbound hrest
  ready h := by
    cases h with
    | ready hv => exact ⟨_, rfl, hv⟩
  ready_strict _ _ _ _ h := by
    cases h with
    | ready hv => exact ⟨_, rfl⟩
  todo_nil := .nil
  todo_cons hc h := .cons hc h

end

section

variable {base limit : Nat} {policy : Policy}

/-- Both sides agree on what is one and the same. -/
theorem identical_recasts {c c' : Comparison}
    (h : c.SameKind (Value.Recasts base limit policy) (Env.Recasts base limit policy) c') :
    c.identical = c'.identical := by
  refine (h.mono ?_ ?_).identical_eq
  · intro v w hv
    cases hv with
    | atom hatom => exact .atom hatom
    | closure => exact .closure
    | cons => exact .cons
  · intro a b hab
    cases hab with
    | empty => exact .empty
    | frame => exact .frame

/-- New frames in front of the same bindings carry the same tags. -/
theorem extend_recasts {ρ ρ' : Env} (henv : ρ.Recasts base limit policy ρ')
    {bs bs' : List (Name × Thunk)}
    (hbs : List.Forall₂ (fun b b' => b.1 = b'.1 ∧ b.2.Recasts base limit policy b'.2) bs bs')
    {s t : Store} (htag : t.nextTag = s.nextTag) :
    (s.extend ρ bs).1.Recasts base limit policy (t.extend ρ' bs').1 := by
  induction hbs with
  | nil => exact henv
  | @cons b b' rest rest' hb hrest ih =>
      obtain ⟨name, x⟩ := b
      obtain ⟨name', x'⟩ := b'
      obtain ⟨rfl, hx⟩ := hb
      simp only [Store.extend, Store.freshTag, Store.extend_nextTag, htag, hrest.length_eq]
      exact .frame hx ih

end

/-! ## The same states under a limit -/

/-- The states are the same but for data that were made under a limit. -/
structure State.Matches (base limit : Nat) (policy : Policy) (s s' : State) : Prop where
  tag : s'.store.nextTag = s.store.nextTag
  size : s'.store.cells.size = s.store.cells.size
  base_le : base ≤ s.store.cells.size
  kept : ∀ address, base ≤ address →
    Option.Rel (Value.Recasts base limit policy) (s.store.kept? address) (s'.store.kept? address)
  depth : s'.depth = s.depth
  counters : s'.counters = s.counters

namespace State.Matches

variable {base limit : Nat} {policy : Policy} {s s' : State}

theorem freshTag (h : s.Matches base limit policy s') :
    Matches base limit policy { s with store := s.store.freshTag.2 }
      { s' with store := s'.store.freshTag.2 } :=
  ⟨congrArg (· + 1) h.tag, h.size, h.base_le, h.kept, h.depth, h.counters⟩

theorem allocate (h : s.Matches base limit policy s') :
    Matches base limit policy { s with store := s.store.allocate.2 }
      { s' with store := s'.store.allocate.2 } where
  tag := h.tag
  size := by simp only [Store.size_allocate, h.size]
  base_le := by
    have := h.base_le
    simp only [Store.size_allocate]
    omega
  kept address haddress := by
    simp only [Store.kept?_allocate]
    exact h.kept address haddress
  depth := h.depth
  counters := h.counters

theorem extend (h : s.Matches base limit policy s') (ρ ρ' : Env) {bs bs' : List (Name × Thunk)}
    (hlength : bs'.length = bs.length) :
    Matches base limit policy { s with store := (s.store.extend ρ bs).2 }
      { s' with store := (s'.store.extend ρ' bs').2 } := by
  simp only [Store.extend_snd, hlength]
  exact ⟨congrArg (· + bs.length) h.tag, h.size, h.base_le, h.kept, h.depth, h.counters⟩

theorem keep (h : s.Matches base limit policy s') {v v' : Value}
    (hv : v.Recasts base limit policy v') (address : Nat) :
    Matches base limit policy { s with store := s.store.keep address v }
      { s' with store := s'.store.keep address v' } where
  tag := h.tag
  size := by simp only [Store.size_keep, h.size]
  base_le := by simpa only [Store.size_keep] using h.base_le
  kept n hn := by
    by_cases haddress : address < s.store.cells.size
    · have haddress' : address < s'.store.cells.size := by rw [h.size]; exact haddress
      simp only [Store.kept?_keep haddress, Store.kept?_keep haddress']
      split
      · exact .some hv
      · exact h.kept n hn
    · have hsame : ∀ store : Store, store.cells.size = s.store.cells.size → ∀ v,
          store.keep address v = store := by
        intro store hsize v
        simp only [Store.keep]
        rw [Array.setIfInBounds_eq_of_size_le (by omega)]
      rw [hsame s.store rfl, hsame s'.store h.size]
      exact h.kept n hn
  depth := h.depth
  counters := h.counters

theorem withDepth (h : s.Matches base limit policy s') (depth : Depth) :
    Matches base limit policy { s with depth } { s' with depth } :=
  ⟨h.tag, h.size, h.base_le, h.kept, rfl, h.counters⟩

theorem count (h : s.Matches base limit policy s') (step : Counters → Counters) :
    Matches base limit policy { s with counters := step s.counters }
      { s' with counters := step s'.counters } :=
  ⟨h.tag, h.size, h.base_le, h.kept, h.depth, congrArg step h.counters⟩

end State.Matches

/-! ## Computations under a limit -/

/-- Both computations end in the same way, in states that are the same but for the limit. -/
def Agrees (base limit : Nat) (policy : Policy) {α β : Type} (post : α → β → Prop) :
    EStateM.Result Stop State α → EStateM.Result Stop State β → Prop
  | .ok a s, .ok b s' => post a b ∧ s.Matches base limit policy s'
  | .error stop s, .error stop' s' => stop = stop' ∧ s.Matches base limit policy s'
  | _, _ => False

/-- The computation failed at the limit. -/
def FailsAt (limit : Nat) {α : Type} (result : EStateM.Result Stop State α) : Prop :=
  ∃ span s, result = .error (.fault ⟨.recursionLimit limit, span⟩) s

/-- From states that are the same but for the limit, the second computation goes on like the first
one if that one stays within the limit, and fails at the limit if not; nothing is said of a first
one that runs out of fuel. -/
def Confines (base limit : Nat) (policy : Policy) {α β : Type} (post : α → β → Prop)
    (body : Eval α) (body' : Eval β) : Prop :=
  ∀ s s', s.Matches base limit policy s' → s.depth.deepest ≤ limit → ¬Eval.IsStarved (body s) →
    (body.after s).depth.deepest ≤ limit ∧ Agrees base limit policy post (body s) (body' s') ∨
      limit < (body.after s).depth.deepest ∧ FailsAt limit (body' s')

namespace Confines

variable {base limit : Nat} {policy : Policy} {α β γ δ : Type} {post : α → β → Prop}

/-- Steps that do not go deeper. -/
theorem of_step {body : Eval α} {body' : Eval β}
    (h : ∀ s s', s.Matches base limit policy s' →
      (body.after s).depth = s.depth ∧ Agrees base limit policy post (body s) (body' s')) :
    Confines base limit policy post body body' := by
  intro s s' hs hlimit _
  obtain ⟨hdepth, hagrees⟩ := h s s' hs
  exact .inl ⟨by rw [hdepth]; exact hlimit, hagrees⟩

theorem pure {a : α} {b : β} (h : post a b) :
    Confines base limit policy post (Pure.pure a) (Pure.pure b) :=
  of_step fun _ _ hs => ⟨rfl, h, hs⟩

theorem fail (cause : FaultCause) :
    Confines base limit policy post (Eval.fail cause) (Eval.fail cause) :=
  of_step fun _ _ hs => ⟨rfl, rfl, hs⟩

theorem starved {body' : Eval β} :
    Confines base limit policy post (throw .outOfFuel : Eval α) body' :=
  fun s _ _ _ hnot => absurd ⟨s, rfl⟩ hnot

theorem count (step : Counters → Counters) :
    Confines base limit policy (fun _ _ => True) (Eval.count step) (Eval.count step) :=
  of_step fun _ _ hs => ⟨rfl, trivial, hs.count step⟩

/-- One computation after another.  What comes after one that went too deep cannot undo it. -/
theorem bind {mid : γ → δ → Prop} {first : Eval γ} {first' : Eval δ} {next : γ → Eval α}
    {next' : δ → Eval β} (hfirst : Confines base limit policy mid first first')
    (hbalanced : ∀ c, (next c).IsBalanced)
    (hnext : ∀ c d, mid c d → Confines base limit policy post (next c) (next' d)) :
    Confines base limit policy post (first >>= next) (first' >>= next') := by
  intro s s' hs hlimit hnot
  have hnot' : ¬Eval.IsStarved (first s) := by
    rintro ⟨t, ht⟩
    exact hnot ⟨t, Eval.bind_of_error ht⟩
  rcases hfirst s s' hs hlimit hnot' with ⟨hle, hagrees⟩ | ⟨hlt, span, t', hfails⟩
  · cases hrun : first s with
    | ok c t =>
        cases hrun' : first' s' with
        | error stop t' => rw [hrun, hrun'] at hagrees; exact hagrees.elim
        | ok d t' =>
            rw [hrun, hrun'] at hagrees
            rw [Eval.after, hrun] at hle
            rw [Eval.bind_of_ok hrun] at hnot
            rw [Eval.after_bind_ok hrun, Eval.bind_of_ok hrun, Eval.bind_of_ok hrun']
            exact hnext c d hagrees.1 t t' hagrees.2 hle hnot
    | error stop t =>
        cases hrun' : first' s' with
        | ok d t' => rw [hrun, hrun'] at hagrees; exact hagrees.elim
        | error stop' t' =>
            rw [hrun, hrun'] at hagrees
            rw [Eval.after, hrun] at hle
            rw [Eval.after_bind_error hrun, Eval.bind_of_error hrun, Eval.bind_of_error hrun']
            exact .inl ⟨hle, hagrees⟩
  -- The first computation went too deep, and the deepest level never gets smaller.
  · refine .inr ⟨?_, span, t', Eval.bind_of_error hfails⟩
    rw [Eval.after] at hlt
    cases hrun : first s with
    | ok c t =>
        rw [hrun] at hlt
        rw [Eval.after_bind_ok hrun]
        exact Nat.lt_of_lt_of_le hlt (hbalanced c t).2
    | error stop t =>
        rw [hrun] at hlt
        rw [Eval.after_bind_error hrun]
        exact hlt

/-- One level deeper there is room under the limit, or the limit is exceeded. -/
theorem within {body : Eval α} {body' : Eval β} (hbalanced : body.IsBalanced)
    (h : Confines base limit policy post body body') (span : Span) :
    Confines base limit policy post (Eval.within none span body)
      (Eval.within (some limit) span body') := by
  intro s s' hs hlimit hnot
  have hdeepest : s.depth.deeper.deepest ≤
      (body.after { s with depth := s.depth.deeper }).depth.deepest :=
    (hbalanced { s with depth := s.depth.deeper }).2
  have hcurrent : s.depth.current + 1 ≤ s.depth.deeper.deepest := Nat.le_max_right _ _
  have hleft := Eval.within_of_hasRoom (s := s) (Depth.hasRoom_none _) span body
  have hafter : ((Eval.within none span body).after s).depth.deepest =
      (body.after { s with depth := s.depth.deeper }).depth.deepest := by
    rw [Eval.after, Eval.after, hleft]
    cases body { s with depth := s.depth.deeper } <;> rfl
  rw [hafter]
  -- Without room for the level the right side fails, and the left one gets too deep there.
  by_cases hroom : s.depth.HasRoom (some limit)
  · have hright := Eval.within_of_hasRoom (s := s') (hs.depth ▸ hroom) span body'
    rw [hs.depth] at hright
    have hstart : s.depth.deeper.deepest ≤ limit := by
      have hlt := hroom limit rfl
      exact Nat.max_le.2 ⟨hlimit, hlt⟩
    have hnot' : ¬Eval.IsStarved (body { s with depth := s.depth.deeper }) := by
      rintro ⟨t, ht⟩
      exact hnot ⟨_, by rw [hleft, ht]; rfl⟩
    rw [hleft, hright]
    rcases h _ _ (hs.withDepth s.depth.deeper) hstart hnot' with
      ⟨hle, hagrees⟩ | ⟨hlt, span', t', hfails⟩
    · refine .inl ⟨hle, ?_⟩
      cases hrun : body { s with depth := s.depth.deeper } <;>
        cases hrun' : body' { s' with depth := s.depth.deeper } <;>
        simp only [hrun, hrun', Agrees] at hagrees ⊢
      · refine ⟨hagrees.1, ?_⟩
        rw [hagrees.2.depth]
        exact hagrees.2.withDepth _
      · refine ⟨congrArg (Stop.leaving · span) hagrees.1, ?_⟩
        rw [hagrees.2.depth]
        exact hagrees.2.withDepth _
    · refine .inr ⟨hlt, ?_⟩
      rw [hfails]
      exact ⟨_, _, rfl⟩
  · have hfull : limit ≤ s.depth.current := by
      refine Nat.le_of_not_lt fun hlt => hroom ?_
      rintro n ⟨rfl⟩
      exact hlt
    refine .inr ⟨by omega, none, s', ?_⟩
    unfold Eval.within
    rw [hs.depth, (Depth.enter_eq_error_iff (some limit) s.depth limit).2 ⟨rfl, hfull⟩]

end Confines

/-! ## Evaluations under a limit -/

section

variable {base limit : Nat} {policy : Policy} {n m : Nat}

/-- Evaluating with this much fuel goes on under the limit like without. -/
def EvalConfines (base limit : Nat) (policy : Policy) (n : Nat) : Prop :=
  ∀ {ρ ρ' : Env} (e : Expr), ρ.Recasts base limit policy ρ' →
    Confines base limit policy (Value.Recasts base limit policy)
      (eval n ⟨policy, none⟩ ρ e) (eval n ⟨policy, some limit⟩ ρ' e)

/-- So does comparing. -/
def CompareConfines (base limit : Nat) (policy : Policy) (n m : Nat) : Prop :=
  ∀ {todo todo' : List Comparison}, (recastKinship base limit policy).todo () todo todo' →
    Confines base limit policy Eq (compareAll (eval n) m todo) (compareAll (eval n) m todo')

theorem freshTag_confines :
    Confines base limit policy (fun t t' => t' = t) Eval.freshTag Eval.freshTag :=
  .of_step fun _ _ hs => ⟨rfl, hs.tag, hs.freshTag⟩

theorem keep_confines {v v' : Value} (hv : v.Recasts base limit policy v') {address : Nat}
    (hbase : base ≤ address) :
    Confines base limit policy (Value.Recasts base limit policy) (Eval.keep address v)
      (Eval.keep address v') := by
  refine .of_step fun s s' hs => ?_
  rw [Eval.after, Eval.keep_apply, Eval.keep_apply]
  have hkept := hs.kept address hbase
  cases hleft : s.store.kept? address with
  | none =>
      rw [hleft] at hkept
      cases hright : s'.store.kept? address with
      | some w => rw [hright] at hkept; cases hkept
      | none => exact ⟨rfl, hv, hs.keep hv address⟩
  | some w =>
      rw [hleft] at hkept
      cases hright : s'.store.kept? address with
      | none => rw [hright] at hkept; cases hkept
      | some w' =>
          rw [hright] at hkept
          cases hkept with
          | some hw => exact ⟨rfl, hw, hs⟩

theorem force_confines (hn : EvalConfines base limit policy n) {x x' : Thunk}
    (hx : x.Recasts base limit policy x') :
    Confines base limit policy (Value.Recasts base limit policy) (force (eval n) x)
      (force (eval n) x') := by
  have hbalanced := Eval.isCompositional_isBalanced
  have hrun : ∀ {ρ ρ' : Env} (e : Expr), ρ.Recasts base limit policy ρ' →
      Confines base limit policy (Value.Recasts base limit policy)
        (Suspension.run (eval n) ⟨⟨policy, none⟩, ρ, e⟩)
        (Suspension.run (eval n) ⟨⟨policy, some limit⟩, ρ', e⟩) := fun {ρ ρ'} e henv =>
    .bind (.count _) (fun _ => hbalanced.eval n _ ρ e) fun _ _ _ => hn e henv
  cases hx with
  | ready hv => exact .pure hv
  | byName henv => exact hrun _ henv
  | @byNeed address ρ ρ' e hbase henv =>
      intro s s' hs hlimit hnot
      -- A cell has a result on both sides or on neither.
      have hkept := hs.kept address hbase
      cases hleft : s.store.kept? address with
      | none =>
          rw [hleft] at hkept
          cases hright : s'.store.kept? address with
          | some w => rw [hright] at hkept; cases hkept
          | none =>
              have hwhole := Confines.bind (hrun e henv)
                (fun v => by rw [Eval.keep_eq_onStore]; exact hbalanced.onStore _)
                fun v v' hv => keep_confines hv hbase
              rw [Eval.after, Eval.force_of_pending hleft, Eval.force_of_pending hright]
              rw [Eval.force_of_pending hleft] at hnot
              exact hwhole s s' hs hlimit hnot
      | some w =>
          rw [hleft] at hkept
          cases hright : s'.store.kept? address with
          | none => rw [hright] at hkept; cases hkept
          | some w' =>
              rw [hright] at hkept
              cases hkept with
              | some hw =>
                  rw [Eval.after, Eval.force_of_kept hleft, Eval.force_of_kept hright]
                  exact .inl ⟨hlimit, hw, hs⟩

theorem delay_confines (hn : EvalConfines base limit policy n) {ρ ρ' : Env} (e : Expr)
    (henv : ρ.Recasts base limit policy ρ') (d : Discipline) :
    Confines base limit policy (Thunk.Recasts base limit policy)
      (delay (eval n) d ⟨policy, none⟩ ρ e) (delay (eval n) d ⟨policy, some limit⟩ ρ' e) := by
  cases d with
  | value =>
      exact .bind (hn e henv) (fun _ => Eval.isCompositional_isBalanced.pure _)
        fun _ _ hv => .pure (.ready hv)
  | name => exact .pure (.byName henv)
  | need =>
      refine .of_step fun s s' hs => ⟨rfl, ?_, hs.allocate⟩
      rw [hs.size]
      exact .byNeed hs.base_le henv

/-- Related plans go on under the limit like without. -/
theorem run_confines (hn : EvalConfines base limit policy n)
    (hm : CompareConfines base limit policy n m) {α β : Type}
    {post : (recastKinship base limit policy).World → α → β → Prop}
    {W : (recastKinship base limit policy).World} {p : Plan α} {q : Plan β}
    (hrel : Plan.Related (recastKinship base limit policy) post W p q) :
    Confines base limit policy (post W) (p.run (eval n) m) (q.run (eval n) m) := by
  -- Whatever follows a request, the deepest level does not get smaller again.
  have hbalanced : ∀ {α : Type} (p : Plan α), (p.run (eval n) m).IsBalanced :=
    fun p => Eval.isCompositional_isBalanced.run n m p
  induction hrel with
  | done h => exact .pure h
  | fail h =>
      rw [h trivial]
      exact .fail _
  | count _ ih => exact .bind (.count _) (fun _ => hbalanced _) fun _ _ _ => ih
  | eval henv _ ih =>
      exact .bind (hn _ henv) (fun _ => hbalanced _) fun v w hv => ih () trivial v w hv
  | force hthunk _ ih =>
      exact .bind (force_confines hn hthunk) (fun _ => hbalanced _)
        fun v w hv => ih () trivial v w hv
  | delay _ henv _ ih =>
      exact .bind (delay_confines hn _ henv _) (fun _ => hbalanced _)
        fun x x' hx => ih () trivial x x' hx
  | cell hhead htail _ _ ih =>
      refine .bind freshTag_confines (fun _ => hbalanced _) fun t t' ht => ?_
      subst ht
      exact ih () trivial _ _ (.cons hhead htail)
  | closure henv _ ih =>
      refine .bind freshTag_confines (fun _ => hbalanced _) fun t t' ht => ?_
      subst ht
      exact ih () trivial _ _ (.closure henv)
  | extend henv hbs _ ih =>
      refine .bind ?_ (fun _ => hbalanced _) fun a b hab => ih () trivial a b hab
      exact .of_step fun s s' hs =>
        ⟨rfl, extend_recasts henv hbs hs.tag, hs.extend _ _ hbs.length_eq.symm⟩
  | compare htodo _ ih =>
      refine .bind (hm htodo) (fun _ => hbalanced _) fun b b' hb => ?_
      subst hb
      exact ih () trivial b

theorem compare_confines (hn : EvalConfines base limit policy n) (m : Nat) :
    CompareConfines base limit policy n m := by
  induction m with
  | zero => exact fun _ => .starved
  | succ m ih =>
      intro todo todo' htodo
      rw [compareAll_succ, compareAll_succ]
      cases htodo with
      | nil => exact .pure rfl
      | cons hc htodo =>
          have hrel := (recastKinship base limit policy).step_related (W := ()) htodo hc
            (.inl (identical_recasts hc))
          exact run_confines hn ih hrel

/-- Evaluating goes on under the limit like without. -/
theorem eval_confines (n : Nat) : EvalConfines base limit policy n := by
  induction n with
  | zero => exact fun e _ => .starved
  | succ n ih =>
      intro ρ ρ' e henv
      rw [eval_succ, eval_succ]
      have hrel := (recastKinship base limit policy).plan_related (W := ()) henv e
      exact .within (Eval.isCompositional_isBalanced.run n n _)
        (run_confines ih (compare_confines ih n) (.count hrel)) e.span

end

end PolicyEval
