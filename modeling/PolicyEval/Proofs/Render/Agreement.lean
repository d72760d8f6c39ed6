import PolicyEval.Expr.Table
import PolicyEval.Proofs.Cells.Retention
import PolicyEval.Proofs.Equality.Laws
import PolicyEval.Proofs.Render.Legibility
import PolicyEval.Proofs.Syntax.Numbering

/-!
# Printing and equality agree

Evaluated values are equal if they hold the same data.  Without closures the data are told from
their texts, so two values are equal exactly if they are printed alike, provided that the print
depth shows all of them.  With closures, whose functions are nodes of one program, values that are
equal are printed alike still: equal closures are made of one and the same function.

Comparing looks into the environments of closures, and evaluates what it finds delayed there.  This
leaves kept results where they are, so the data that were evaluated before are so afterwards.

* `IsProgram`, `Leaf.StemsFrom` — the nodes of a program, and closures made of them.
* `compareAll_agrees` — evaluated data that compare as equal are the same.
* `Value.Holds.alike` — values that hold the same data look alike.
* `Session.equals_agrees_with_text` — equality against the text.
-/

namespace PolicyEval

/-! ## Functions of one program -/

/-- The nodes of one program: those of an expression that was read, or those of a node table. -/
inductive IsProgram : (Expr → Prop) → Prop
  | source {names names' : Interner} {source : String} {root : Expr}
      (h : Expr.ofSourceWith names source = .ok (root, names')) : IsProgram (· ∈ root.postorder)
  | table {nodes : List Node} {trees : Array Expr} (h : Node.buildAll? nodes = some trees) :
      IsProgram (· ∈ trees)

/-- The number of a row's expression is the position of the row. -/
theorem Node.build?_nodeId {before : Array Expr} {node : Node} {e : Expr}
    (h : node.build? before = some e) : e.nodeId = before.size := by
  cases node <;> simp only [build?, Option.bind_eq_bind, Option.bind_eq_some_iff, Option.pure_def,
    Option.some.injEq] at h <;> grind [Expr.nodeId, Expr.place]

theorem Node.buildFrom?_nodeId {nodes : List Node} {before trees : Array Expr}
    (hbefore : ∀ i (hi : i < before.size), before[i].nodeId = i)
    (h : buildFrom? before nodes = some trees) (i : Nat) (hi : i < trees.size) :
    trees[i].nodeId = i := by
  induction nodes generalizing before with
  | nil =>
      cases h
      exact hbefore i hi
  | cons node nodes ih =>
      rw [buildFrom?] at h
      cases hbuild : node.build? before with
      | none =>
          rw [hbuild] at h
          cases h
      | some e =>
          rw [hbuild] at h
          refine ih (fun j hj => ?_) h
          rw [Array.getElem_push]
          split
          · exact hbefore j _
          · rw [build?_nodeId hbuild]
            rw [Array.size_push] at hj
            omega

/-- The number of a node tells which node of the program it is. -/
theorem IsProgram.eq_of_nodeId_eq {node : Expr → Prop} (h : IsProgram node) {e e' : Expr}
    (he : node e) (he' : node e') (hid : e.nodeId = e'.nodeId) : e = e' := by
  cases h with
  | source h => exact (Expr.fits_of_ofSourceWith h).2.eq_of_nodeId_eq he he' hid
  | table h =>
      obtain ⟨i, hi, rfl⟩ := Array.getElem_of_mem he
      obtain ⟨j, hj, rfl⟩ := Array.getElem_of_mem he'
      have hnumber := @Node.buildFrom?_nodeId _ #[] _ nofun h
      rw [hnumber i hi, hnumber j hj] at hid
      subst hid
      rfl

/-- A closure is made of a function of the program. -/
def Leaf.StemsFrom (node : Expr → Prop) : Leaf → Prop
  | closure lambda => node lambda.expr
  | int _ | bool _ | prim _ => True

/-- Data whose closures are made of functions of the program. -/
abbrev Datum.StemsFrom (node : Expr → Prop) (x : Datum) : Prop := x.All (Leaf.StemsFrom node)

theorem Datum.All.mono {P Q : Leaf → Prop} (himp : ∀ l, P l → Q l) {x : Datum} (h : x.All P) :
    x.All Q := by
  induction h with
  | leaf h => exact .leaf (himp _ h)
  | list _ ih => exact .list ih

theorem Datum.IsPlain.stemsFrom {x : Datum} (h : x.IsPlain) (node : Expr → Prop) :
    x.StemsFrom node := by
  refine h.mono fun l hl => ?_
  cases l with
  | closure => exact hl.elim
  | int | bool | prim => exact trivial

/-! ## Evaluated data in later stores -/

section

variable {store store' : Store}

theorem Thunk.Has.mono (hle : store.Le store') {x : Thunk} {v : Value} (h : x.Has store v) :
    x.Has store' v := by
  cases h with
  | ready => exact .ready
  | kept h => exact .kept (hle _ _ h)

theorem Value.Holds.mono (hle : store.Le store') {v : Value} {x : Datum} (h : v.Holds store x) :
    v.Holds store' x := by
  induction h with
  | leaf h => exact .leaf h
  | nil => exact .nil
  | cons hx _ hy _ ihhead ihtail => exact .cons (hx.mono hle) ihhead (hy.mono hle) ihtail

theorem Thunk.Has.unique {x : Thunk} {v w : Value} (h : x.Has store v) (h' : x.Has store w) :
    v = w := by
  cases h with
  | ready =>
      cases h'
      rfl
  | kept h =>
      cases h' with
      | kept h' => exact Option.some.inj (h.symm.trans h')

/-- A value holds one datum only. -/
theorem Value.Holds.unique {v : Value} {x y : Datum} (h : v.Holds store x) (h' : v.Holds store y) :
    x = y := by
  induction h generalizing y with
  | leaf h =>
      cases h' with
      | leaf h' => rw [Option.some.inj (h.symm.trans h')]
      | nil | cons => cases h
  | nil =>
      cases h' with
      | leaf h => cases h
      | nil => rfl
  | cons hx _ hy _ ihhead ihtail =>
      cases h' with
      | leaf h => cases h
      | cons hx' hhead' hy' htail' =>
          cases hx.unique hx'
          cases hy.unique hy'
          cases ihtail htail'
          rw [ihhead hhead']

end

/-! ## Comparing evaluated data -/

/-- The two things hold the same data, if they are evaluated and their closures are made of
functions of the program. -/
def Comparison.Agrees (node : Expr → Prop) (store : Store) : Comparison → Prop
  | .values a b => ∀ x y, a.Holds store x → b.Holds store y → x.StemsFrom node →
      y.StemsFrom node → x = y
  | .tails left right => ∀ a b x y, left.Has store a → right.Has store b → a.Holds store x →
      b.Holds store y → x.StemsFrom node → y.StemsFrom node → x = y
  | .envs _ _ => True

section

variable {node : Expr → Prop} {n : Nat} {r : Ledger} {s s' s₁ s₂ : State}

theorem Comparison.Agrees.of_le {store store' : Store} (hle : store.Le store') {c : Comparison}
    (h : c.Agrees node store') : c.Agrees node store := by
  cases c with
  | values a b => exact fun x y ha hb => h x y (ha.mono hle) (hb.mono hle)
  | tails left right =>
      exact fun a b x y hleft hright ha hb =>
        h a b x y (hleft.mono hle) (hright.mono hle) (ha.mono hle) (hb.mono hle)
  | envs => exact trivial

/-- What two thunks give is recorded in a later ledger, kept results stay, and a value that was
known before is the one that is given. -/
theorem force_both {left right : Thunk} {a b : Value} (hr : r.Covers s.store)
    (hleft : left.Recorded r) (hright : right.Recorded r)
    (hforce : force (eval n) left s = .ok a s₁) (hforce' : force (eval n) right s₁ = .ok b s₂) :
    (∃ r', r.Le r' ∧ r'.Covers s₂.store ∧ a.Recorded r' ∧ b.Recorded r') ∧
      s.store.Le s₂.store ∧ (∀ v, left.Has s.store v → v = a) ∧
        ∀ v, right.Has s.store v → v = b := by
  obtain ⟨r₁, hend⟩ := force_records (eval_records n) hleft s hr
  rw [hforce] at hend
  obtain ⟨hleads, ha⟩ := hend
  obtain ⟨r₂, hend'⟩ := force_records (eval_records n) (hright.mono hleads.le) s₁ hleads.covers
  rw [hforce'] at hend'
  obtain ⟨hleads', hb⟩ := hend'
  have hle := Store.le_of_force hforce
  refine ⟨⟨r₂, hleads.le.trans hleads'.le, hleads'.covers, ha.mono hleads'.le, hb⟩,
    fun address v hkept => Store.le_of_force hforce' address v (hle address v hkept), ?_, ?_⟩
  · intro v hv
    cases (hv.force (eval n)).symm.trans hforce
    rfl
  · intro v hv
    cases ((hv.mono hle).force (eval n)).symm.trans hforce'
    rfl

/-- Functions of one program with the same number are one and the same. -/
theorem IsProgram.lambda_eq (hnode : IsProgram node) {f g : Lambda} (hf : node f.expr)
    (hg : node g.expr) (hid : f.place.id = g.place.id) : f = g := by
  have hexpr : f.expr = g.expr := hnode.eq_of_nodeId_eq hf hg hid
  cases f
  cases g
  cases hexpr
  rfl

/-- Closures with the same function number hold the same data. -/
theorem closures_agree (hnode : IsProgram node) {f g : Lambda} (hid : f.place.id = g.place.id)
    (tag tag' : Nat) (ρ ρ' : Env) (store : Store) :
    (Comparison.values (.closure tag f ρ) (.closure tag' g ρ')).Agrees node store := by
  rintro x y ⟨⟨⟩⟩ ⟨⟨⟩⟩ hx hy
  rw [hnode.lambda_eq (Datum.all_leaf_iff.1 hx) (Datum.all_leaf_iff.1 hy) hid]

/-- One and the same closure or list cell holds the same data on both sides. -/
theorem Value.agrees_of_identical (hnode : IsProgram node) {a b : Value} (ha : a.Recorded r)
    (hb : b.Recorded r) (h : a.identical b = true) (store : Store) :
    (Comparison.values a b).Agrees node store := by
  cases a with
  | int | bool | prim | nil => cases h
  | closure tag f ρ =>
      cases b with
      | closure tag' g ρ' =>
          simp only [identical, Bool.and_eq_true, decide_eq_true_eq] at h
          exact closures_agree hnode h.1 tag tag' ρ ρ' store
      | int | bool | prim | nil | cons => cases h
  | cons tag head tail =>
      cases b with
      | cons tag' head' tail' =>
          simp only [identical, decide_eq_true_eq] at h
          subst h
          simp only [Value.Recorded] at ha hb
          cases ha.1.symm.trans hb.1
          exact fun x y hx hy _ _ => hx.unique hy
      | int | bool | prim | nil | closure => cases h

/-- Two list cells agree if their parts do. -/
theorem cells_agree {store : Store} {left right tail tail' : Thunk} {a b : Value}
    (hleft : ∀ v, left.Has store v → v = a) (hright : ∀ v, right.Has store v → v = b)
    (hvalues : (Comparison.values a b).Agrees node store)
    (htails : (Comparison.tails tail tail').Agrees node store) (tag tag' : Nat) :
    (Comparison.values (.cons tag left tail) (.cons tag' right tail')).Agrees node store := by
  intro x y hx hy hxstems hystems
  cases hx with
  | leaf h => cases h
  | @cons _ _ _ _ _ item items hhas hhead hhastail htail =>
      cases hy with
      | leaf h => cases h
      | @cons _ _ _ _ _ item' items' hhas' hhead' hhastail' htail' =>
          obtain ⟨hitem, hitems⟩ := List.forall_mem_cons.1 (Datum.all_list_iff.1 hxstems)
          obtain ⟨hitem', hitems'⟩ := List.forall_mem_cons.1 (Datum.all_list_iff.1 hystems)
          cases hleft _ hhas
          cases hright _ hhas'
          cases htails _ _ _ _ hhastail hhastail' htail htail' (.list hitems) (.list hitems')
          rw [hvalues _ _ hhead hhead' hitem hitem']

/-- With this much fuel, what compares as equal agrees. -/
def CompareAgrees (node : Expr → Prop) (n fuel : Nat) : Prop :=
  ∀ {r : Ledger} {s s' : State} {todo : List Comparison}, r.Covers s.store →
    (∀ c ∈ todo, c.Recorded r) → compareAll (eval n) fuel todo s = .ok true s' →
      ∀ c ∈ todo, c.Agrees node s.store

/-- Forcing two thunks may change the store, but what agrees afterwards agreed before. -/
theorem CompareAgrees.parts {fuel : Nat} (h : CompareAgrees node n fuel) {left right : Thunk}
    {a b : Value} {todo : List Comparison} (hr : r.Covers s.store) (hleft : left.Recorded r)
    (hright : right.Recorded r) (htodo : ∀ c ∈ todo, c.Recorded r)
    (hforce : force (eval n) left s = .ok a s₁) (hforce' : force (eval n) right s₁ = .ok b s₂)
    (hcompare : compareAll (eval n) fuel (.values a b :: todo) s₂ = .ok true s') :
    ((∀ v, left.Has s.store v → v = a) ∧ (∀ v, right.Has s.store v → v = b) ∧
      (Comparison.values a b).Agrees node s.store) ∧ ∀ c ∈ todo, c.Agrees node s.store := by
  obtain ⟨⟨r', hle, hr', ha, hb⟩, hstore, hhas, hhas'⟩ := force_both hr hleft hright hforce hforce'
  have hrecorded : ∀ c ∈ .values a b :: todo, c.Recorded r' :=
    List.forall_mem_cons.2 ⟨⟨ha, hb⟩, fun c hc => (htodo c hc).mono hle⟩
  obtain ⟨hvalues, hagrees⟩ := List.forall_mem_cons.1 (h hr' hrecorded hcompare)
  exact ⟨⟨hhas, hhas', hvalues.of_le hstore⟩, fun c hc => (hagrees c hc).of_le hstore⟩

theorem Value.eq_of_meet_eq_equal {a b : Value} (h : a.meet b = .equal) : a = b := by
  cases a <;> cases b <;> simp only [meet] at h <;> grind

theorem Value.eq_of_meet_eq_envs {a b : Value} {ρ ρ' : Env} (h : a.meet b = .envs ρ ρ') :
    ∃ tag tag' f g, a = .closure tag f ρ ∧ b = .closure tag' g ρ' ∧ f.place.id = g.place.id := by
  unfold meet at h
  split at h <;> first | cases h | split at h <;> cases h
  next hid => exact ⟨_, _, _, _, rfl, rfl, hid⟩

theorem Value.eq_of_meet_eq_parts {a b : Value} {left right : Thunk} {next : Comparison}
    (h : a.meet b = .parts left right next) :
    ∃ tag tag' tail tail', a = .cons tag left tail ∧ b = .cons tag' right tail' ∧
      next = .tails tail tail' := by
  unfold meet at h
  split at h <;> first | cases h | split at h <;> cases h
  exact ⟨_, _, _, _, rfl, rfl, rfl⟩

theorem Env.eq_of_meet_eq_parts {ρ ρ' : Env} {left right : Thunk} {next : Comparison}
    (h : ρ.meet ρ' = .parts left right next) :
    ∃ tag tag' name name' rest rest', ρ = .frame tag name left rest ∧
      ρ' = .frame tag' name' right rest' ∧ next = .envs rest rest' := by
  unfold meet at h
  split at h <;> first | cases h | split at h <;> cases h
  exact ⟨_, _, _, _, _, _, rfl, rfl, rfl⟩

/-- Two values that are not one and the same agree if they compare as equal. -/
theorem CompareAgrees.values {fuel : Nat} (h : CompareAgrees node n fuel) (hnode : IsProgram node)
    {a b : Value} {todo : List Comparison} (hr : r.Covers s.store) (ha : a.Recorded r)
    (hb : b.Recorded r) (htodo : ∀ c ∈ todo, c.Recorded r)
    (hcompare : (a.meet b).proceed (eval n) fuel todo s = .ok true s') :
    (Comparison.values a b).Agrees node s.store ∧ ∀ c ∈ todo, c.Agrees node s.store := by
  cases hmeet : a.meet b with
  | unequal =>
      rw [hmeet] at hcompare
      cases hcompare
  | equal =>
      rw [hmeet] at hcompare
      cases Value.eq_of_meet_eq_equal hmeet
      exact ⟨fun x y hx hy _ _ => hx.unique hy, h hr htodo hcompare⟩
  -- Closures whose environments are compared are made of one function.
  | envs ρ ρ' =>
      rw [hmeet] at hcompare
      obtain ⟨tag, tag', f, g, rfl, rfl, hid⟩ := Value.eq_of_meet_eq_envs hmeet
      simp only [Value.Recorded] at ha hb
      have hrecorded : ∀ c ∈ .envs ρ ρ' :: todo, c.Recorded r :=
        List.forall_mem_cons.2 ⟨⟨ha.2, hb.2⟩, htodo⟩
      exact ⟨closures_agree hnode hid tag tag' ρ ρ' _,
        (List.forall_mem_cons.1 (h hr hrecorded hcompare)).2⟩
  | parts left right next =>
      rw [hmeet] at hcompare
      obtain ⟨tag, tag', tail, tail', rfl, rfl, rfl⟩ := Value.eq_of_meet_eq_parts hmeet
      have hrecorded : ∀ c ∈ .tails tail tail' :: todo, c.Recorded r :=
        List.forall_mem_cons.2 ⟨⟨⟨tag, left, ha⟩, tag', right, hb⟩, htodo⟩
      simp only [Value.Recorded] at ha hb
      obtain ⟨v, s₁, hforce, hcompare⟩ := Eval.bind_eq_ok.1 hcompare
      obtain ⟨w, s₂, hforce', hcompare⟩ := Eval.bind_eq_ok.1 hcompare
      obtain ⟨⟨hleft, hright, hvalues⟩, hagrees⟩ :=
        h.parts hr ha.2.1 hb.2.1 hrecorded hforce hforce' hcompare
      obtain ⟨htails, hagrees⟩ := List.forall_mem_cons.1 hagrees
      exact ⟨cells_agree hleft hright hvalues htails tag tag', hagrees⟩

/-- What comes after two environments agrees if they compare as equal. -/
theorem CompareAgrees.envs {fuel : Nat} (h : CompareAgrees node n fuel) {ρ ρ' : Env}
    {todo : List Comparison} (hr : r.Covers s.store) (hρ : ρ.Recorded r) (hρ' : ρ'.Recorded r)
    (htodo : ∀ c ∈ todo, c.Recorded r)
    (hcompare : (ρ.meet ρ').proceed (eval n) fuel todo s = .ok true s') :
    ∀ c ∈ todo, c.Agrees node s.store := by
  cases hmeet : ρ.meet ρ' with
  | unequal =>
      rw [hmeet] at hcompare
      cases hcompare
  | equal =>
      rw [hmeet] at hcompare
      exact h hr htodo hcompare
  | envs => cases ρ <;> cases ρ' <;> simp only [Env.meet] at hmeet <;> grind
  | parts left right next =>
      rw [hmeet] at hcompare
      obtain ⟨tag, tag', name, name', rest, rest', rfl, rfl, rfl⟩ := Env.eq_of_meet_eq_parts hmeet
      simp only [Env.Recorded] at hρ hρ'
      have hrecorded : ∀ c ∈ .envs rest rest' :: todo, c.Recorded r :=
        List.forall_mem_cons.2 ⟨⟨hρ.2.2, hρ'.2.2⟩, htodo⟩
      obtain ⟨v, s₁, hforce, hcompare⟩ := Eval.bind_eq_ok.1 hcompare
      obtain ⟨w, s₂, hforce', hcompare⟩ := Eval.bind_eq_ok.1 hcompare
      have hagrees := (h.parts hr hρ.2.1 hρ'.2.1 hrecorded hforce hforce' hcompare).2
      exact (List.forall_mem_cons.1 hagrees).2

theorem forceTail_eq_ok {ev : Evaluator} {x : Thunk} {v : Value}
    (h : forceTail ev x s = .ok v s') : force ev x s = .ok v s' := by
  obtain ⟨w, s₁, hforce, hlift⟩ := Eval.bind_eq_ok.1 h
  obtain ⟨htail, rfl⟩ := Eval.lift_eq_ok.1 hlift
  cases (asTail_eq_ok.1 htail).2
  exact hforce

/-- The second parts of two list cells agree if their values do. -/
theorem CompareAgrees.tails {fuel : Nat} (h : CompareAgrees node n fuel) {left right : Thunk}
    {todo : List Comparison} (hr : r.Covers s.store) (hleft : left.Recorded r)
    (hright : right.Recorded r) (htodo : ∀ c ∈ todo, c.Recorded r)
    (hcompare : compareAll (eval n) (fuel + 1) (.tails left right :: todo) s = .ok true s') :
    (Comparison.tails left right).Agrees node s.store ∧ ∀ c ∈ todo, c.Agrees node s.store := by
  rw [compareAll_tails] at hcompare
  obtain ⟨v, s₁, hforce, hcompare⟩ := Eval.bind_eq_ok.1 hcompare
  obtain ⟨w, s₂, hforce', hcompare⟩ := Eval.bind_eq_ok.1 hcompare
  obtain ⟨⟨hhas, hhas', hvalues⟩, hagrees⟩ := h.parts hr hleft hright htodo
    (forceTail_eq_ok hforce) (forceTail_eq_ok hforce') hcompare
  refine ⟨fun a b x y ha hb => ?_, hagrees⟩
  cases hhas a ha
  cases hhas' b hb
  exact hvalues x y

/-- What compares as equal agrees, whatever is evaluated on the way. -/
theorem compareAll_agrees (hnode : IsProgram node) (n fuel : Nat) : CompareAgrees node n fuel := by
  -- Each step agrees by what it has compared and by what it leaves to be compared.
  induction fuel with
  | zero =>
      intro r s s' todo _ _ h
      cases h
  | succ fuel ih =>
      intro r s s' todo hr htodo h
      cases todo with
      | nil => exact List.forall_mem_nil _
      | cons c todo =>
          rw [List.forall_mem_cons] at htodo ⊢
          obtain ⟨hc, htodo⟩ := htodo
          cases c with
          | values a b =>
              rw [compareAll_values] at h
              split at h
              · next hidentical =>
                  exact ⟨Value.agrees_of_identical hnode hc.1 hc.2 hidentical _, ih hr htodo h⟩
              · exact ih.values hnode hr hc.1 hc.2 htodo h
          | tails left right =>
              obtain ⟨⟨tag, z, hleft⟩, tag', z', hright⟩ := hc
              simp only [Value.Recorded] at hleft hright
              exact ih.tails hr hleft.2.2 hright.2.2 htodo h
          | envs ρ ρ' =>
              refine ⟨trivial, ?_⟩
              rw [compareAll_envs] at h
              split at h
              · exact ih hr htodo h
              · exact ih.envs hr hc.1 hc.2 htodo h

end

/-! ## Data that look alike -/

section

variable {store : Store}

theorem Thunk.Shows.of_has {x x' : Thunk} {v : Value} (h : x.Shows store x') (hv : x.Has store v) :
    ∃ v', x' = .ready v' ∧ v.Shows store v' := by
  cases h with
  | ready h =>
      cases hv
      exact ⟨_, rfl, h⟩
  | kept hkept h =>
      cases hv with
      | kept hkept' =>
          cases hkept.symm.trans hkept'
          exact ⟨_, rfl, h⟩

theorem Thunk.Has.shows {x : Thunk} {v v' : Value} (h : x.Has store v) (hv : v.Shows store v') :
    x.Shows store (.ready v') := by
  cases h with
  | ready => exact .ready hv
  | kept h => exact .kept h hv

/-- A leaf that is not a closure is an atom, and known by itself. -/
theorem Leaf.IsPlain.isAtom {l : Leaf} (h : l.IsPlain) {v : Value} (hv : v.leaf? = some l) :
    v.IsAtom := by
  cases v with
  | int | bool | prim | nil => exact trivial
  | closure =>
      cases hv
      exact h.elim
  | cons => cases hv

theorem Value.eq_of_leaf? {v w : Value} {l : Leaf} (h : l.IsPlain) (hv : v.leaf? = some l)
    (hw : w.leaf? = some l) : v = w := by
  cases l with
  | closure => exact h.elim
  | int | bool | prim => cases v <;> cases hv; cases w <;> cases hw; rfl

/-- A value that holds data without closures is evaluated. -/
theorem Value.Holds.exists_shows {v : Value} {x : Datum} (h : v.Holds store x) (hx : x.IsPlain) :
    ∃ v', v.Shows store v' := by
  induction h with
  | leaf h => exact ⟨_, .atom ((Datum.all_leaf_iff.1 hx).isAtom h)⟩
  | nil => exact ⟨_, .atom trivial⟩
  | cons hhas _ hhastail htail ihhead ihtail =>
      obtain ⟨hitem, hitems⟩ := List.forall_mem_cons.1 (Datum.all_list_iff.1 hx)
      obtain ⟨head', hhead'⟩ := ihhead hitem
      obtain ⟨tail', htail'⟩ := ihtail (.list hitems)
      exact ⟨_, .cons (hhas.shows hhead') (hhastail.shows htail')
        (htail'.layer.isList_eq.trans htail.isList)⟩

/-- Values that hold the same data without closures look alike. -/
theorem Value.Holds.alike {v w v' w' : Value} {x : Datum} (hv : v.Holds store x)
    (hw : w.Holds store x) (hx : x.IsPlain) (hv' : v.Shows store v') (hw' : w.Shows store w') :
    v'.alike w' = true := by
  -- The induction is on how the first value holds the data; the others are taken apart with it.
  induction hv generalizing w v' w' with
  | leaf h =>
      cases hw with
      | leaf h' =>
          have hplain := Datum.all_leaf_iff.1 hx
          cases Value.eq_of_leaf? hplain h h'
          cases hv'.unique hw'
          exact Value.alike_self hv'.isEvaluated
  | nil =>
      cases hw
      cases hv'.unique hw'
      exact Value.alike_self hv'.isEvaluated
  | cons hhas _ hhastail _ ihhead ihtail =>
      obtain ⟨hitem, hitems⟩ := List.forall_mem_cons.1 (Datum.all_list_iff.1 hx)
      cases hw with
      | cons hhas' hhead' hhastail' htail' =>
          cases hv' with
          | atom h => exact h.elim
          | cons hshows hshowstail =>
              cases hw' with
              | atom h => exact h.elim
              | cons hshows' hshowstail' =>
                  obtain ⟨_, rfl, h₁⟩ := hshows.of_has hhas
                  obtain ⟨_, rfl, h₂⟩ := hshows'.of_has hhas'
                  obtain ⟨_, heq, h₃⟩ := hshowstail.of_has hhastail
                  obtain ⟨_, heq', h₄⟩ := hshowstail'.of_has hhastail'
                  cases heq
                  cases heq'
                  simp only [Value.alike, Thunk.alike, Bool.and_eq_true]
                  exact ⟨ihhead hhead' hitem h₁ h₂, ihtail htail' (.list hitems) h₃ h₄⟩

end

/-! ## Sessions -/

/-- With enough fuel the value is rendered over the store to this text. -/
def Store.Writes (store : Store) (printDepth : Nat) (v : Value) (text : String) : Prop :=
  ∃ enough, ∀ fuel, enough ≤ fuel →
    ((renderValue (eval fuel) printDepth v).report store).result = .ok text

theorem Value.Holds.writes {store : Store} {v : Value} {x : Datum} (h : v.Holds store x)
    (printDepth : Nat) : store.Writes printDepth v (x.sight printDepth printDepth).text := by
  have hholds : v.Holds (State.start store).store x := h
  obtain ⟨-, enough, hrender⟩ := endsAs_iff.1 (hholds.endsAs printDepth)
  exact ⟨enough, fun fuel hfuel => Eval.report_result_eq_ok.2 ⟨_, hrender fuel hfuel⟩⟩

/-- Evaluated values that compare as equal hold the same data. -/
theorem Value.Holds.eq_of_equates {node : Expr → Prop} (hnode : IsProgram node) {store : Store}
    {r : Ledger} (hr : r.Covers store) {v w : Value} (hvrecorded : v.Recorded r)
    (hwrecorded : w.Recorded r) {x y : Datum} (hx : v.Holds store x) (hy : w.Holds store y)
    (hxstems : x.StemsFrom node) (hystems : y.StemsFrom node) (h : store.Equates v w true) :
    x = y := by
  obtain ⟨enough, hequal⟩ := h
  obtain ⟨s', hcompare⟩ := Eval.report_result_eq_ok.1 (hequal enough (Nat.le_refl _))
  have hrecorded : ∀ c ∈ [Comparison.values v w], c.Recorded r := by
    simpa [Comparison.Recorded] using ⟨hvrecorded, hwrecorded⟩
  have hagrees := compareAll_agrees hnode enough enough (s := State.start store) hr hrecorded
    hcompare (.values v w) List.mem_cons_self
  exact hagrees x y hx hy hxstems hystems

namespace Session

/-- Equality against the text.

Two evaluated values without closures are rendered to texts, and comparing them tells whether the
texts are the same, under every print depth that shows all of them.  With closures of one program,
values that are equal have the same text under every print depth. -/
theorem equals_agrees_with_text {s : Session} (h : s.Reached) {left right : String} {v w : Value}
    (hv : s.slot? left = some v) (hw : s.slot? right = some w) {x y : Datum}
    (hx : v.Holds s.store x) (hy : w.Holds s.store y) :
    (x.IsPlain → y.IsPlain → ∀ printDepth, x.Fits printDepth printDepth →
      y.Fits printDepth printDepth → ∃ text text', s.store.Writes printDepth v text ∧
        s.store.Writes printDepth w text' ∧ s.store.Equates v w (decide (text = text'))) ∧
    ∀ node, IsProgram node → x.StemsFrom node → y.StemsFrom node → s.store.Equates v w true →
      ∀ printDepth, ∃ text, s.store.Writes printDepth v text ∧
        s.store.Writes printDepth w text := by
  obtain ⟨r, hrecorded⟩ := h.exists_ledger
  have hsame : ∀ node, IsProgram node → x.StemsFrom node → y.StemsFrom node →
      s.store.Equates v w true → x = y := fun node hnode hxstems hystems =>
    Value.Holds.eq_of_equates hnode hrecorded.store (hrecorded.slots hv) (hrecorded.slots hw) hx hy
      hxstems hystems
  refine ⟨fun hxplain hyplain printDepth hxfits hyfits => ?_, ?_⟩
  · refine ⟨_, _, hx.writes printDepth, hy.writes printDepth, ?_⟩
    rw [hxfits.text_eq, hyfits.text_eq]
    obtain ⟨v', hv'⟩ := hx.exists_shows hxplain
    obtain ⟨w', hw'⟩ := hy.exists_shows hyplain
    have hequates := hv'.equates hrecorded.store hw' (hrecorded.slots hv) (hrecorded.slots hw)
    -- No closure is there, so any program will do.
    have hnode : IsProgram (· ∈ #[]) := .table (show Node.buildAll? [] = some #[] from rfl)
    have hverdict : v'.alike w' = decide (x.text = y.text) := by
      by_cases htext : x.text = y.text
      · cases Datum.text_injective hxplain hyplain htext
        rw [decide_eq_true htext]
        exact hx.alike hy hxplain hv' hw'
      · rw [decide_eq_false htext, Bool.eq_false_iff]
        intro halike
        rw [halike] at hequates
        have heq := hsame _ hnode (hxplain.stemsFrom _) (hyplain.stemsFrom _) hequates
        exact htext (heq ▸ rfl)
    exact hverdict ▸ hequates
  · intro node hnode hxstems hystems hequates printDepth
    cases hsame node hnode hxstems hystems hequates
    exact ⟨_, hx.writes printDepth, hy.writes printDepth⟩

/-- The lists `(1 (true cons) ())` and `(-1 (true cons) ())`, and two closures of one function. -/
theorem equals_agrees_with_text_lists :
    let span : Span := ⟨0, 0⟩
    let lambda : Lambda := ⟨⟨1, span⟩, [⟨⟨0, "x"⟩, span⟩], .ident ⟨0, span⟩ ⟨0, "x"⟩⟩
    let row (n : Int) : Literal := .list [.int n, .list [.bool true, .prim .cons], .list []]
    let pair (tag : Nat) (v w : Value) : Value := .cons tag (.ready v) (.ready w)
    let list (tag : Nat) (n : Int) : Value := pair (tag + 4) (.int n) (pair (tag + 3)
      (pair (tag + 1) (.bool true) (pair tag (.prim .cons) .nil)) (pair (tag + 2) .nil .nil))
    let s₁ := ((start ⟨⟨⟨.value, .value⟩, none⟩, 9⟩ true).perform 9 (.literal (row 1) (some "a"))).1
    let s₂ := (s₁.perform 9 (.literal (row (-1)) (some "b"))).1
    let s₃ := (s₂.perform 9 (.evaluate lambda.expr (some "f"))).1
    let s := (s₃.perform 9 (.evaluate lambda.expr (some "g"))).1
    (s.slot? "a" = some (list 0 1) ∧ s.slot? "b" = some (list 5 (-1)) ∧
      ∃ text text', s.store.Writes 3 (list 0 1) text ∧ s.store.Writes 3 (list 5 (-1)) text' ∧
        s.store.Equates (list 0 1) (list 5 (-1)) (decide (text = text'))) ∧
    s.slot? "f" = some (.closure 10 lambda .empty) ∧
      s.slot? "g" = some (.closure 11 lambda .empty) ∧
      ∃ text, s.store.Writes 0 (.closure 10 lambda .empty) text ∧
        s.store.Writes 0 (.closure 11 lambda .empty) text := by
  intro span lambda row pair list s₁ s₂ s₃ s
  have hreached : s.Reached :=
    .perform (.perform (.perform (.perform (.start _ _) _ _) _ _) _ _) _ _
  have ha : s.slot? "a" = some (list 0 1) := by with_unfolding_all rfl
  have hb : s.slot? "b" = some (list 5 (-1)) := by with_unfolding_all rfl
  have hf : s.slot? "f" = some (.closure 10 lambda .empty) := by with_unfolding_all rfl
  have hg : s.slot? "g" = some (.closure 11 lambda .empty) := by with_unfolding_all rfl
  let datum (n : Int) : Datum :=
    .list [.leaf (.int n), .list [.leaf (.bool true), .leaf (.prim .cons)], .list []]
  have hholds : ∀ tag n, (list tag n).Holds s.store (datum n) := fun tag n =>
    .cons .ready (.leaf rfl) .ready (.cons .ready
      (.cons .ready (.leaf rfl) .ready (.cons .ready (.leaf rfl) .ready .nil)) .ready
      (.cons .ready .nil .ready .nil))
  have hplain : ∀ n, (datum n).IsPlain := by
    intro n
    simp [datum, Datum.IsPlain, Datum.all_list_iff, Datum.all_leaf_iff, Leaf.IsPlain]
  have hfits : ∀ n, (datum n).Fits 3 3 := fun n =>
    .list (Nat.le_refl 3) (by
      simpa using ⟨.leaf, .list (by decide) (by simpa using ⟨.leaf, .leaf⟩),
        .list (by decide) nofun⟩)
  have hprogram : IsProgram (· ∈ #[.ident ⟨0, span⟩ ⟨0, "x"⟩, lambda.expr]) :=
    .table (show Node.buildAll? [.ident span ⟨0, "x"⟩, .map span [⟨⟨0, "x"⟩, span⟩] 0] = _ from rfl)
  have hlambda : (Datum.leaf (.closure lambda)).StemsFrom
      (· ∈ #[.ident ⟨0, span⟩ ⟨0, "x"⟩, lambda.expr]) := .leaf (by simp [Leaf.StemsFrom])
  have hequates : s.store.Equates (.closure 10 lambda .empty) (.closure 11 lambda .empty) true := by
    refine ⟨3, fun fuel hfuel => ?_⟩
    obtain ⟨k, rfl⟩ : ∃ k, fuel = k + 3 := ⟨fuel - 3, by omega⟩
    with_unfolding_all rfl
  exact ⟨⟨ha, hb, (equals_agrees_with_text hreached ha hb (hholds 0 1) (hholds 5 (-1))).1 (hplain 1)
      (hplain (-1)) 3 (hfits 1) (hfits (-1))⟩, hf, hg,
    (equals_agrees_with_text hreached hf hg (.leaf rfl) (.leaf rfl)).2 _ hprogram hlambda hlambda
      hequates 0⟩

end Session

end PolicyEval
