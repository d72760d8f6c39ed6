import PolicyEval.Proofs.Sharing.Account

/-!
# From evaluated values to thunks

Under the policy that evaluates everything at once, the parts of lists and the bindings of
environments are values.  Under another policy they are thunks.  A thunk stands for a value if it
yields, wherever it is forced, something that stands for that value.  What an account of the first
policy yields, one of any other policy yields too, up to this relation.

Comparisons are the delicate point, since marks differ on both sides.  On evaluated values the
outcome of a comparison does not depend on marks: it is whether they are alike part by part.

* `Value.Lifts`, `Thunk.Lifts`, `Env.Lifts` — what stands for evaluated data.
* `Value.alike`, `Thunk.alike`, `Env.alike` — evaluated data that look the same in every part.
* `stepPlan_yields` — comparing yields whether the evaluated data are alike.
* `Yields.lift` — what the account of the eager policy yields, that of every policy yields.
-/

namespace PolicyEval

/-! ## Data that stand for evaluated data -/

mutual
/-- A value that stands for an evaluated value. -/
inductive Value.Lifts : Value → Value → Prop
  | atom {v : Value} (h : v.IsAtom) : Value.Lifts v v
  | closure {tag tag' : Nat} {lambda : Lambda} {ρ ρ' : Env} (henv : Env.Lifts ρ ρ') :
      Value.Lifts (.closure tag lambda ρ) (.closure tag' lambda ρ')
  | cons {tag tag' : Nat} {x x' y y' : Thunk} (hhead : Thunk.Lifts x x')
      (htail : Thunk.Lifts y y') (hlist : ∀ v, y = .ready v → v.isList = true) :
      Value.Lifts (.cons tag x y) (.cons tag' x' y')

/-- A thunk that yields, wherever it is forced, what stands for an evaluated value. -/
inductive Thunk.Lifts : Thunk → Thunk → Prop
  | ready {v : Value} {x' : Thunk} (result : Seed → Value)
      (hyields : ∀ σ, x'.Yields none σ (result σ)) (h : ∀ σ, Value.Lifts v (result σ)) :
      Thunk.Lifts (.ready v) x'

/-- An environment that stands for an environment of evaluated values. -/
inductive Env.Lifts : Env → Env → Prop
  | empty : Env.Lifts .empty .empty
  | frame {tag tag' : Nat} {name : Name} {x x' : Thunk} {rest rest' : Env}
      (hbound : Thunk.Lifts x x') (hrest : Env.Lifts rest rest') :
      Env.Lifts (.frame tag name x rest) (.frame tag' name x' rest')
end

mutual
/-- Evaluated data stand for themselves. -/
theorem Value.Lifts.self {v w : Value} : v.Lifts w → v.Lifts v
  | .atom h => .atom h
  | .closure henv => .closure henv.self
  | .cons hhead htail hlist => .cons hhead.self htail.self hlist

theorem Thunk.Lifts.self {x y : Thunk} : x.Lifts y → x.Lifts x
  | .ready _ _ h => .ready (fun _ => _) (fun _ => .ready) fun _ => (h []).self

theorem Env.Lifts.self {ρ ρ' : Env} : ρ.Lifts ρ' → ρ.Lifts ρ
  | .empty => .empty
  | .frame hbound hrest => .frame hbound.self hrest.self
end

theorem Value.Lifts.layer {v w : Value} (h : v.Lifts w) :
    v.SameLayer Thunk.Lifts Env.Lifts w := by
  cases h with
  | atom h => exact .atom h
  | closure henv => exact .closure henv
  | cons hhead htail _ => exact .cons hhead htail

theorem Env.Lifts.layer {ρ ρ' : Env} (h : ρ.Lifts ρ') :
    ρ.SameLayer Thunk.Lifts Env.Lifts ρ' := by
  cases h with
  | empty => exact .empty
  | frame hbound hrest => exact .frame hbound hrest

/-! ## Evaluated data that are alike -/

mutual
/-- Whether two evaluated values look the same in every part. -/
def Value.alike : Value → Value → Bool
  | .int a, .int b => decide (a = b)
  | .bool a, .bool b => decide (a = b)
  | .prim a, .prim b => decide (a = b)
  | .closure _ f ρ, .closure _ g ρ' => decide (f.place.id = g.place.id) && ρ.alike ρ'
  | .nil, .nil => true
  | .cons _ x y, .cons _ x' y' => x.alike x' && y.alike y'
  | _, _ => false

/-- Whether two known values look the same in every part. -/
def Thunk.alike : Thunk → Thunk → Bool
  | .ready v, .ready w => v.alike w
  | _, _ => false

/-- Whether two environments of evaluated values look the same in every part. -/
def Env.alike : Env → Env → Bool
  | .empty, .empty => true
  | .frame _ name x rest, .frame _ name' x' rest' =>
    name.same name' && x.alike x' && rest.alike rest'
  | _, _ => false
end

theorem Value.alike_self_of_isAtom {v : Value} (h : v.IsAtom) : v.alike v = true := by
  cases v <;> first | exact h.elim | simp [Value.alike]

mutual
/-- Values for which one and the same value stands are alike. -/
theorem Value.Lifts.alike {v u w : Value} : v.Lifts w → u.Lifts w → v.alike u = true
  | .atom h, hu => by
    cases hu with
    | atom => exact Value.alike_self_of_isAtom h
    | closure | cons => exact h.elim
  | .closure henv, hu => by
    cases hu with
    | atom h => exact h.elim
    | closure henv' => simp [Value.alike, henv.alike henv']
  | .cons hhead htail _, hu => by
    cases hu with
    | atom h => exact h.elim
    | cons hhead' htail' _ => simp [Value.alike, hhead.alike hhead', htail.alike htail']

theorem Thunk.Lifts.alike {x y z : Thunk} : x.Lifts z → y.Lifts z → x.alike y = true
  | .ready result hyields h, hy => by
    cases hy with
    | ready result' hyields' h' =>
        -- Forced at one seed, the thunk yields one value, which stands for both.
        have hsame : result [] = result' [] := (hyields []).unique (hyields' [])
        exact (h []).alike (hsame ▸ h' [])

theorem Env.Lifts.alike {a b c : Env} : a.Lifts c → b.Lifts c → a.alike b = true
  | .empty, hb => by
    cases hb with
    | empty => rfl
  | .frame hbound hrest, hb => by
    cases hb with
    | frame hbound' hrest' =>
        simp [Env.alike, Name.same, hbound.alike hbound', hrest.alike hrest']
end

/-! ## Comparing evaluated data -/

/-- Whether both sides look the same in every part. -/
def Comparison.alike : Comparison → Bool
  | .values a b => a.alike b
  | .tails x y => x.alike y
  | .envs a b => a.alike b

/-- A comparison whose sides stand for the sides of another one. -/
abbrev Comparison.Lifts : Comparison → Comparison → Prop :=
  Comparison.SameKind Value.Lifts Env.Lifts

mutual
/-- The number of parts of an evaluated value. -/
def Value.weight : Value → Nat
  | .closure _ _ ρ => ρ.weight + 1
  | .cons _ x y => x.weight + y.weight + 1
  | _ => 1

/-- The number of parts of a known value. -/
def Thunk.weight : Thunk → Nat
  | .ready v => v.weight + 1
  | _ => 1

/-- The number of parts of an environment of evaluated values. -/
def Env.weight : Env → Nat
  | .empty => 1
  | .frame _ _ x rest => x.weight + rest.weight + 1
end

/-- The number of parts of the left side. -/
def Comparison.weight : Comparison → Nat
  | .values a _ => a.weight
  | .tails x _ => x.weight
  | .envs a _ => a.weight

theorem Comparison.weight_pos (c : Comparison) : 0 < c.weight := by
  cases c with
  | values a b => cases a <;> simp [Comparison.weight, Value.weight]
  | tails x y => cases x <;> simp [Comparison.weight, Thunk.weight]
  | envs a b => cases a <;> simp [Comparison.weight, Env.weight]

/-- The number of parts of all left sides. -/
@[simp] def totalWeight : List Comparison → Nat
  | [] => 0
  | c :: todo => c.weight + totalWeight todo

/-- What coincides stands for data that are alike. -/
theorem Comparison.Lifts.alike_of_coincides {c c' : Comparison} (h : c.Lifts c')
    (hsame : c'.coincides = true) : c.alike = true := by
  cases h with
  | values ha hb =>
      obtain rfl := Comparison.coincides_values.1 hsame
      exact ha.alike hb
  | tails => cases hsame
  | envs ha hb =>
      obtain rfl := Comparison.coincides_envs.1 hsame
      exact ha.alike hb

/-- Whether what a meeting leaves to be compared looks the same in every part. -/
def Meeting.alike : Meeting → Bool
  | .equal => true
  | .unequal => false
  | .envs a b => a.alike b
  | .parts x y next => x.alike y && next.alike

theorem Value.meet_alike (a b : Value) : (a.meet b).alike = a.alike b := by
  cases a <;> cases b <;> simp only [Value.meet, Value.alike] <;> grind [Meeting.alike, Comparison.alike]

theorem Env.meet_alike (a b : Env) : (a.meet b).alike = a.alike b := by
  cases a <;> cases b <;> simp only [Env.meet, Env.alike] <;> grind [Meeting.alike, Comparison.alike]

/-- The number of parts that a meeting leaves to be compared. -/
def Meeting.weight : Meeting → Nat
  | .equal | .unequal => 0
  | .envs a _ => a.weight
  | .parts x _ next => x.weight + next.weight

theorem Value.meet_weight_lt (a b : Value) : (a.meet b).weight < a.weight := by
  cases a <;> cases b <;> simp only [Value.meet] <;>
    grind [Meeting.weight, Value.weight, Comparison.weight]

theorem Env.meet_weight_lt (a b : Env) : (a.meet b).weight < a.weight := by
  cases a <;> cases b <;> simp only [Env.meet] <;>
    grind [Meeting.weight, Env.weight, Comparison.weight]

/-- Comparing what a meeting leaves yields whether that is alike, if comparing fewer parts does. -/
theorem meeting_yields {m m' : Meeting} (hm : m.SameKind Thunk.Lifts Value.Lifts Env.Lifts m')
    {todo todo' : List Comparison} (htodo : List.Forall₂ Comparison.Lifts todo todo')
    (ih : ∀ {rest rest'}, List.Forall₂ Comparison.Lifts rest rest' →
      totalWeight rest ≤ m.weight + totalWeight todo → ∀ σ,
        Yields none σ 0 (stepPlan Comparison.coincides rest') (rest.all Comparison.alike))
    (σ : Seed) :
    Yields none σ 0 (m'.plan todo') (m.alike && todo.all Comparison.alike) := by
  cases hm with
  | equal => exact .compare (ih htodo (Nat.le_add_left _ _) _) .done
  | unequal => exact .done
  | envs ha hb => exact .compare (ih (.cons (.envs ha hb) htodo) (Nat.le_refl _) _) .done
  | parts hx hy hc =>
      cases hx with
      | ready result hyields hv =>
          cases hy with
          | ready result' hyields' hw =>
              refine (hyields _).force ((hyields' _).force (.compare ?_ .done))
              rw [Meeting.alike, Bool.and_assoc]
              refine ih (.cons (.values (hv _) (hw _)) (.cons hc htodo)) ?_ _
              simp only [totalWeight, Comparison.weight, Meeting.weight, Thunk.weight]
              omega

theorem tails_yields {t t' u u' : Nat} {x x' y y' z z' w w' : Thunk}
    (ha : (Value.cons t z x).Lifts (.cons t' z' x')) (hb : (Value.cons u w y).Lifts (.cons u' w' y'))
    {todo todo' : List Comparison} (htodo : List.Forall₂ Comparison.Lifts todo todo')
    (ih : ∀ {rest rest'}, List.Forall₂ Comparison.Lifts rest rest' →
      totalWeight rest < totalWeight (.tails x y :: todo) → ∀ σ,
        Yields none σ 0 (stepPlan Comparison.coincides rest') (rest.all Comparison.alike))
    (σ : Seed) :
    Yields none σ 0 ((Comparison.tails x' y').plan todo')
      (x.alike y && todo.all Comparison.alike) := by
  cases ha with
  | atom hatom => exact hatom.elim
  | cons _ hx hlist =>
      cases hb with
      | atom hatom => exact hatom.elim
      | cons _ hy hlist' =>
          cases hx with
          | @ready a _ result hyields h =>
              cases hy with
              | @ready b _ result' hyields' h' =>
                  have hleft := asTail_eq_ok.2 ⟨(h (σ ++ [0])).layer.isList_eq.trans
                    (hlist a rfl), rfl⟩
                  have hright := asTail_eq_ok.2 ⟨(h' (σ ++ [1])).layer.isList_eq.trans
                    (hlist' b rfl), rfl⟩
                  refine (hyields _).force ?_
                  simp only [hleft, Plan.lift]
                  refine (hyields' _).force ?_
                  simp only [hright]
                  refine .compare (ih (.cons (.values (h _) (h' _)) htodo) ?_ _) .done
                  simp [Comparison.weight, Thunk.weight]

/-- Comparing what stands for evaluated data yields whether these are alike. -/
theorem stepPlan_yields {todo todo' : List Comparison}
    (h : List.Forall₂ Comparison.Lifts todo todo') (σ : Seed) :
    Yields none σ 0 (stepPlan Comparison.coincides todo') (todo.all Comparison.alike) := by
  -- Every step leaves fewer parts to be compared.
  induction hw : totalWeight todo using Nat.strongRecOn generalizing todo todo' σ with
  | ind n ih =>
      subst hw
      have hless : ∀ {rest rest' : List Comparison}, List.Forall₂ Comparison.Lifts rest rest' →
          totalWeight rest < totalWeight todo → ∀ σ,
            Yields none σ 0 (stepPlan Comparison.coincides rest') (rest.all Comparison.alike) :=
        fun hrest hlt σ => ih _ hlt hrest σ rfl
      cases h with
      | nil => exact .done
      | @cons c c' rest rest' hc hrest =>
          simp only [stepPlan, List.all_cons]
          split
          · next hsame =>
              rw [hc.alike_of_coincides hsame, Bool.true_and]
              exact .compare (hless hrest (by simp [c.weight_pos]) _) .done
          · cases hc with
            | @values a b _ _ ha hb =>
                have hlt : (a.meet b).weight < a.weight := a.meet_weight_lt b
                rw [Comparison.alike, ← a.meet_alike b]
                refine meeting_yields (Value.meet_sameKind Value.Lifts.layer ha hb) hrest ?_ σ
                exact fun hqueue hle => hless hqueue
                  (hle.trans_lt (Nat.add_lt_add_right hlt _))
            | @envs a b _ _ ha hb =>
                have hlt : (a.meet b).weight < a.weight := a.meet_weight_lt b
                rw [Comparison.alike, ← a.meet_alike b]
                refine meeting_yields (Env.meet_sameKind Env.Lifts.layer ha hb) hrest ?_ σ
                exact fun hqueue hle => hless hqueue
                  (hle.trans_lt (Nat.add_lt_add_right hlt _))
            | tails ha hb => exact tails_yields ha hb hrest hless σ

/-- Comparisons of evaluated data stand for themselves. -/
theorem lifts_self {todo todo' : List Comparison}
    (h : List.Forall₂ Comparison.Lifts todo todo') : List.Forall₂ Comparison.Lifts todo todo := by
  induction h with
  | nil => exact .nil
  | cons hc _ ih =>
      refine .cons ?_ ih
      cases hc with
      | values ha hb => exact .values ha.self hb.self
      | tails ha hb => exact .tails ha.self hb.self
      | envs ha hb => exact .envs ha.self hb.self

/-! ## Lifting -/

/-- What stands for evaluated data, under the eager policy on the left. -/
def liftKinship (limit : Option Nat) (setting : Setting) : Kinship where
  World := Unit
  le _ _ := True
  left := ⟨.eager, limit⟩
  right := setting
  strict := False
  value _ := Value.Lifts
  thunk _ := Thunk.Lifts
  env _ := Env.Lifts
  todo _ := List.Forall₂ Comparison.Lifts
  refl _ := trivial
  trans _ _ := trivial
  value_mono _ h := h
  thunk_mono _ h := h
  env_mono _ h := h
  todo_mono _ h := h
  atom h := .atom h
  empty := .empty
  value_layer h := h.layer
  env_layer h := h.layer
  ready h := by
    cases h with
    | ready result hyields h =>
        refine ⟨_, rfl, ?_⟩
        have hsame := (hyields []).unique (.ready : (Thunk.ready _).Yields none [] _)
        exact hsame ▸ h []
  ready_strict h := h.elim
  todo_nil := .nil
  todo_cons hc h := .cons hc h

theorem Env.Lifts.framed {ρ ρ' : Env} (henv : ρ.Lifts ρ') (σ σ' : Seed)
    {bs bs' : List (Name × Thunk)}
    (hbs : List.Forall₂ (fun b b' => b.1 = b'.1 ∧ b.2.Lifts b'.2) bs bs') :
    (ρ.framed σ bs).Lifts (ρ'.framed σ' bs') := by
  induction hbs with
  | nil => exact henv
  | @cons b b' rest rest' hb hrest ih =>
      obtain ⟨name, x⟩ := b
      obtain ⟨name', x'⟩ := b'
      obtain ⟨rfl, hx⟩ := hb
      exact .frame hx ih

/-- Whatever the discipline, the thunk of an expression stands for its value. -/
theorem delay_lifts (d : Discipline) (setting : Setting) {ρ : Env} {e : Expr} {v : Value}
    {result : Seed → Value} (hv : ∀ τ, v.Lifts (result τ))
    (hyields : ∀ τ, Yields none τ 0 (e.plan setting ρ) (result τ)) (σ : Seed) (k : Nat) :
    ∃ x, (Thunk.ready v).Lifts x ∧ ∀ {α : Type} {next : Thunk → Plan α} {a : α},
      Yields none σ (k + 1) (next x) a → Yields none σ k (.delay d setting ρ e next) a := by
  cases d with
  | value =>
      refine ⟨.ready (result (σ ++ [k])), ?_, fun h => .delayValue below_none (hyields _) h⟩
      exact .ready (fun _ => result (σ ++ [k])) (fun _ => .ready) fun _ => hv _
  | name =>
      refine ⟨.byName ⟨setting, ρ, e⟩, ?_, fun h => .delayName h⟩
      exact .ready result (fun τ => .run rfl below_none (hyields τ)) hv
  | need =>
      refine ⟨.byNeed (Seed.code (σ ++ [k])) ⟨setting, ρ, e⟩, ?_, fun h => .delayNeed h⟩
      -- Wherever it is forced, the thunk is evaluated where it was made.
      refine .ready (fun _ => result (σ ++ [k])) (fun _ => ?_) fun _ => hv _
      refine .run (τ := σ ++ [k]) ?_ below_none (hyields _)
      simp only [Thunk.home, Seed.ofCode_code]

/-- What the account of the eager policy yields, that of every policy yields, in what stands for
it. -/
theorem Yields.lift {limit : Option Nat} {setting : Setting} {α β : Type} {b : Option Nat}
    {σ : Seed} {k : Nat} {p : Plan α} {a : α} (h : Yields b σ k p a)
    {W : (liftKinship limit setting).World}
    {post : (liftKinship limit setting).World → α → β → Prop} {q : Plan β}
    (hrel : Plan.Related (liftKinship limit setting) post W p q) (σ' : Seed) (k' : Nat) :
    ∃ a', post W a a' ∧ Yields none σ' k' q a' := by
  -- The induction is on how the eager account comes to its result.  All thunks are ready there, so
  -- those that wait for their values have no case.
  induction h generalizing β W q σ' k' with
  | done =>
      cases hrel with
      | done hpost => exact ⟨_, hpost, .done⟩
  | count _ ih =>
      cases hrel with
      | count hrel =>
          obtain ⟨a', hpost, hyields⟩ := ih hrel σ' k'
          exact ⟨a', hpost, .count hyields⟩
  | eval _ _ _ ihv ih =>
      cases hrel with
      | eval henv hnext =>
          obtain ⟨v', hv, hvyields⟩ := ihv
            (Kinship.plan_related (K := liftKinship limit setting) henv _) (σ' ++ [k']) 0
          obtain ⟨a', hpost, hyields⟩ := ih (hnext W trivial _ _ hv) σ' (k' + 1)
          exact ⟨a', hpost, .eval below_none hvyields hyields⟩
  | ready _ ih =>
      cases hrel with
      | force hthunk hnext =>
          cases hthunk with
          | ready result hresult hv =>
              obtain ⟨a', hpost, hyields⟩ := ih (hnext W trivial _ _ (hv _)) σ' (k' + 1)
              exact ⟨a', hpost, (hresult _).force hyields⟩
  | force hhome =>
      cases hrel with
      | force hthunk =>
          cases hthunk
          cases hhome
  | delayValue _ _ _ ihv ih =>
      obtain ⟨axis, ρ', next', haxis, -, rfl, henv, rfl, hnext⟩ := hrel.delay_inv
      -- Wherever its thunk is forced, the expression yields what stands for the value.
      have hforce : ∀ τ, ∃ v', Value.Lifts _ v' ∧ Yields none τ 0 _ v' := fun τ =>
        ihv (Kinship.plan_related (K := liftKinship limit setting) henv _) τ 0
      choose result hv hyields using hforce
      obtain ⟨x, hx, hdelay⟩ := delay_lifts (axis setting.policy) setting hv hyields σ' k'
      obtain ⟨a', hpost, hnextyields⟩ := ih (hnext W trivial _ _ hx) σ' (k' + 1)
      exact ⟨a', hpost, hdelay hnextyields⟩
  | delayName =>
      obtain ⟨axis, _, _, rfl | rfl, heager, _⟩ := hrel.delay_inv <;> cases heager
  | delayNeed =>
      obtain ⟨axis, _, _, rfl | rfl, heager, _⟩ := hrel.delay_inv <;> cases heager
  | cell _ ih =>
      cases hrel with
      | cell hhead htail hlist hnext =>
          obtain ⟨a', hpost, hyields⟩ :=
            ih (hnext W trivial _ _ (.cons hhead htail hlist)) σ' (k' + 1)
          exact ⟨a', hpost, .cell hyields⟩
  | closure _ ih =>
      cases hrel with
      | closure henv hnext =>
          obtain ⟨a', hpost, hyields⟩ := ih (hnext W trivial _ _ (.closure henv)) σ' (k' + 1)
          exact ⟨a', hpost, .closure hyields⟩
  | extend _ ih =>
      cases hrel with
      | extend henv hbs hnext =>
          obtain ⟨a', hpost, hyields⟩ :=
            ih (hnext W trivial _ _ (Env.Lifts.framed henv _ (σ' ++ [k']) hbs)) σ' (k' + 1)
          exact ⟨a', hpost, .extend hyields⟩
  | compare ht _ _ ih =>
      cases hrel with
      | compare htodo hnext =>
          -- What stands for evaluated data compares in the same way.
          obtain rfl := ht.unique (stepPlan_yields (lifts_self htodo) _)
          obtain ⟨a', hpost, hyields⟩ := ih (hnext W trivial _) σ' (k' + 1)
          exact ⟨a', hpost, .compare (stepPlan_yields htodo _) hyields⟩

end PolicyEval
