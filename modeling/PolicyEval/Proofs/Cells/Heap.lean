import Mathlib.Logic.Relation
import PolicyEval.Proofs.Eval.Cells
import PolicyEval.Proofs.Eval.Kinship

/-!
# Heaps without cycles

A store cell refers to the cells that are mentioned by its suspension and by the result it keeps.
Results come later than suspensions and may refer to newer cells, so addresses do not order these
references.  Still there is no cycle: a result is made of what its evaluation could get at, and that
never leads back to the cell that is being evaluated.

* `Value.Mentions`, `Thunk.Mentions`, `Env.Mentions` — the cells that data refer to directly.
* `Heap` — the suspensions and the results of all cells.
* `Heap.Reaches` — one cell leads to another.
* `Heap.Sound` — cells lead to cells of the heap, and none to itself.
* `Heap.Le` — a later heap in which nothing leads to some cells that did not lead there before.
-/

namespace PolicyEval

/-! ## Mentioned cells -/

mutual
/-- The value refers to the cell of a suspension. -/
def Value.Mentions : Value → Nat → Suspension → Prop
  | .closure _ _ env, address, q => env.Mentions address q
  | .cons _ head tail, address, q => head.Mentions address q ∨ tail.Mentions address q
  | _, _, _ => False

/-- The thunk refers to the cell of a suspension; what that suspension refers to does not count. -/
def Thunk.Mentions : Thunk → Nat → Suspension → Prop
  | .ready v, address, q => v.Mentions address q
  | .byName s, address, q => s.Mentions address q
  | .byNeed cell s, address, q => cell = address ∧ s = q

/-- The suspension refers to the cell of another one. -/
def Suspension.Mentions : Suspension → Nat → Suspension → Prop
  | ⟨_, env, _⟩, address, q => env.Mentions address q

/-- The environment refers to the cell of a suspension. -/
def Env.Mentions : Env → Nat → Suspension → Prop
  | .empty, _, _ => False
  | .frame _ _ thunk rest, address, q => thunk.Mentions address q ∨ rest.Mentions address q
end

/-- A side of the comparison refers to the cell of a suspension. -/
def Comparison.Mentions : Comparison → Nat → Suspension → Prop
  | .values left right, address, q => left.Mentions address q ∨ right.Mentions address q
  | .tails left right, address, q => left.Mentions address q ∨ right.Mentions address q
  | .envs left right, address, q => left.Mentions address q ∨ right.Mentions address q

theorem Value.IsAtom.not_mentions {v : Value} (h : v.IsAtom) (address : Nat) (q : Suspension) :
    ¬v.Mentions address q := by
  cases v <;> first | exact h.elim | simp only [Value.Mentions, not_false_iff]

theorem Env.Mentions.of_lookupText {ρ : Env} {name : String} {x : Thunk} {address : Nat}
    {q : Suspension} (hx : ρ.lookupText name = some x) (h : x.Mentions address q) :
    ρ.Mentions address q := by
  match ρ with
  | .empty => cases hx
  | .frame _ bound thunk rest =>
      simp only [Env.Mentions]
      unfold Env.lookupText at hx
      split at hx
      · cases hx
        exact .inl h
      · exact .inr (Env.Mentions.of_lookupText hx h)

/-- New frames refer to what is bound and to what was bound before. -/
theorem Env.Mentions.of_extend {s : Store} {ρ : Env} {bindings : List (Name × Thunk)}
    {address : Nat} {q : Suspension} (h : (s.extend ρ bindings).1.Mentions address q) :
    ρ.Mentions address q ∨ ∃ b ∈ bindings, b.2.Mentions address q := by
  induction bindings with
  | nil => exact .inl h
  | cons b bindings ih =>
      simp only [Store.extend, Env.Mentions] at h
      rcases h with h | h
      · exact .inr ⟨b, List.mem_cons_self, h⟩
      · refine (ih h).imp_right ?_
        rintro ⟨b', hb', h'⟩
        exact ⟨b', List.mem_cons_of_mem b hb', h'⟩

/-! ## New edges -/

section

variable {E E' : Nat → Nat → Prop} {cell : Nat} {Y : Nat → Prop}

open Relation

/-- A path along old edges and new ones, which all start at one cell, is an old path, or an old path
leads to that cell and another one from the end of a new edge. -/
theorem reaches_of_new_edges (hE' : ∀ x y, E' x y → E x y ∨ x = cell ∧ Y y) {x z : Nat}
    (h : ReflTransGen E' x z) :
    ReflTransGen E x z ∨ ReflTransGen E x cell ∧ ∃ y, Y y ∧ ReflTransGen E y z := by
  induction h using ReflTransGen.head_induction_on with
  | refl => exact .inl .refl
  | head hedge _ ih =>
      rcases hE' _ _ hedge with hold | ⟨rfl, hy⟩
      · exact ih.imp (.head hold) fun ⟨hcell, hend⟩ => ⟨.head hold hcell, hend⟩
      · rcases ih with hpath | ⟨-, hend⟩
        · exact .inr ⟨.refl, _, hy, hpath⟩
        · exact .inr ⟨.refl, hend⟩

/-- New edges make no cycle if their ends do not lead to where they start. -/
theorem acyclic_of_new_edges (hE' : ∀ x y, E' x y → E x y ∨ x = cell ∧ Y y)
    (hY : ∀ y, Y y → ¬ReflTransGen E y cell) (hacyclic : ∀ x, ¬TransGen E x x) (x : Nat) :
    ¬TransGen E' x x := by
  intro hcycle
  obtain ⟨y, hedge, hpath⟩ := TransGen.head'_iff.1 hcycle
  rcases hE' x y hedge with hold | ⟨rfl, hy⟩
  · rcases reaches_of_new_edges hE' hpath with hpath | ⟨hcell, z, hz, hpath⟩
    · exact hacyclic x (.head' hold hpath)
    · exact hY z hz (hpath.trans (.head hold hcell))
  · rcases reaches_of_new_edges hE' hpath with hpath | ⟨-, z, hz, hpath⟩
    · exact hY y hy hpath
    · exact hY z hz hpath

end

/-! ## Heaps -/

/-- The suspensions of all cells by address, and the results that are kept. -/
structure Heap where
  suspensions : List Suspension
  kept : Nat → Option Value

namespace Heap

/-- The suspension belongs to the cell. -/
def Knows (H : Heap) (address : Nat) (q : Suspension) : Prop := H.suspensions[address]? = some q

/-- The suspension or the result of a cell refers to another one. -/
inductive Edge (H : Heap) (x y : Nat) : Prop
  | suspended {q p : Suspension} (hq : H.Knows x q) (h : q.Mentions y p)
  | kept {v : Value} {p : Suspension} (hv : H.kept x = some v) (h : v.Mentions y p)

/-- References lead from one cell to another. -/
def Reaches (H : Heap) : Nat → Nat → Prop := Relation.ReflTransGen H.Edge

/-- All references lead to cells of the heap, with the right suspensions, and never back. -/
structure Sound (H : Heap) : Prop where
  suspended : ∀ {x q}, H.Knows x q → ∀ y p, q.Mentions y p → H.Knows y p
  kept : ∀ {x v}, H.kept x = some v → ∀ y p, v.Mentions y p → H.Knows y p
  bounded : ∀ {x v}, H.kept x = some v → x < H.suspensions.length
  acyclic : ∀ x, ¬Relation.TransGen H.Edge x x

/-- The heap without cells. -/
def empty : Heap := ⟨[], fun _ => none⟩

/-- The heap with a new cell. -/
def allocate (H : Heap) (q : Suspension) : Heap := { H with suspensions := H.suspensions ++ [q] }

/-- The heap in which a cell keeps a result. -/
def keep (H : Heap) (address : Nat) (v : Value) : Heap :=
  { H with kept := Function.update H.kept address (some v) }

/-- The heap says what is in the cells of the store. -/
structure Describes (H : Heap) (s : Store) : Prop where
  size : H.suspensions.length = s.cells.size
  kept : ∀ address, s.kept? address = H.kept address

/-- The cells in `R` are cells of the heap without a result. -/
def Running (H : Heap) (R : List Nat) : Prop :=
  ∀ r ∈ R, r < H.suspensions.length ∧ H.kept r = none

/-- No reference leads from a cell to those in `R`. -/
def Apart (H : Heap) (R : List Nat) (x : Nat) : Prop := ∀ r ∈ R, ¬H.Reaches x r

/-- What is mentioned are cells of the heap that are apart from `R`. -/
def Admits (H : Heap) (R : List Nat) (mentions : Nat → Suspension → Prop) : Prop :=
  ∀ x q, mentions x q → H.Knows x q ∧ H.Apart R x

/-- A later heap, in which no reference leads from old cells to those in `R` that did not before. -/
structure Le (R : List Nat) (H H' : Heap) : Prop where
  knows : ∀ {x q}, H.Knows x q → H'.Knows x q
  apart : ∀ {r x}, r ∈ R → ¬H.Reaches x r → ¬H'.Reaches x r

variable {H H' H'' : Heap} {R : List Nat} {x y z : Nat} {q : Suspension} {v : Value}

theorem Knows.lt (h : H.Knows x q) : x < H.suspensions.length := (List.getElem?_eq_some_iff.1 h).1

theorem Knows.unique {q' : Suspension} (h : H.Knows x q) (h' : H.Knows x q') : q = q' :=
  Option.some.inj (h.symm.trans h')

theorem Le.refl (R : List Nat) (H : Heap) : Le R H H := ⟨id, fun _ => id⟩

theorem Le.trans (h : Le R H H') (h' : Le R H' H'') : Le R H H'' :=
  ⟨h'.knows ∘ h.knows, fun hr => h'.apart hr ∘ h.apart hr⟩

theorem Le.mono {R' : List Nat} (h : Le R H H') (hR : ∀ r ∈ R', r ∈ R) : Le R' H H' :=
  ⟨h.knows, fun hr => h.apart (hR _ hr)⟩

theorem Admits.mono {mentions : Nat → Suspension → Prop} (h : H.Admits R mentions)
    (hle : Le R H H') : H'.Admits R mentions :=
  fun x q hx => ⟨hle.knows (h x q hx).1, fun r hr => hle.apart hr ((h x q hx).2 r hr)⟩

theorem admits_or_iff {left right : Nat → Suspension → Prop} :
    (H.Admits R fun x q => left x q ∨ right x q) ↔ H.Admits R left ∧ H.Admits R right := by
  simp only [Admits, or_imp, forall_and]
  exact and_and_and_comm

theorem admits_of_isAtom (H : Heap) (R : List Nat) {v : Value} (hv : v.IsAtom) :
    H.Admits R v.Mentions :=
  fun x q hx => (hv.not_mentions x q hx).elim

theorem admits_empty (H : Heap) (R : List Nat) : H.Admits R Env.empty.Mentions := by
  intro x q hx
  simp only [Env.Mentions] at hx

/-! Data are admitted part by part. -/

section

variable {tag : Nat} {a b : Thunk} {ρ : Env}

theorem admits_cons_iff :
    H.Admits R (Value.cons tag a b).Mentions ↔ H.Admits R a.Mentions ∧ H.Admits R b.Mentions := by
  simp only [Admits, Value.Mentions]
  exact admits_or_iff

theorem admits_closure_iff {lambda : Lambda} :
    H.Admits R (Value.closure tag lambda ρ).Mentions ↔ H.Admits R ρ.Mentions := by
  simp only [Admits, Value.Mentions]

theorem admits_frame_iff {name : Name} : H.Admits R (Env.frame tag name a ρ).Mentions ↔
    H.Admits R a.Mentions ∧ H.Admits R ρ.Mentions := by
  simp only [Admits, Env.Mentions]
  exact admits_or_iff

theorem admits_ready_iff : H.Admits R (Thunk.ready v).Mentions ↔ H.Admits R v.Mentions := by
  simp only [Admits, Thunk.Mentions]

theorem admits_byName_iff : H.Admits R (Thunk.byName q).Mentions ↔ H.Admits R q.Mentions := by
  simp only [Admits, Thunk.Mentions]

theorem admits_suspension_iff {setting : Setting} {e : Expr} :
    H.Admits R (Suspension.mk setting ρ e).Mentions ↔ H.Admits R ρ.Mentions := by
  simp only [Admits, Suspension.Mentions]

theorem Admits.lookupText (h : H.Admits R ρ.Mentions) {name : String}
    (ha : ρ.lookupText name = some a) : H.Admits R a.Mentions :=
  fun x q hx => h x q (.of_lookupText ha hx)

end

theorem Edge.knows (hH : H.Sound) (h : H.Edge x y) : ∃ q, H.Knows y q := by
  cases h with
  | suspended hq h => exact ⟨_, hH.suspended hq _ _ h⟩
  | kept hv h => exact ⟨_, hH.kept hv _ _ h⟩

/-- What a cell refers to leads nowhere that the cell does not lead to. -/
theorem Apart.of_edge (h : H.Apart R x) (hedge : H.Edge x y) : H.Apart R y :=
  fun r hr hreaches => h r hr (.head hedge hreaches)

/-- The suspension of a cell does not lead back to it. -/
theorem Sound.admits_suspended (hH : H.Sound) (hq : H.Knows x q) (hx : H.Apart R x) :
    H.Admits (x :: R) q.Mentions := by
  intro y p hy
  have hedge : H.Edge x y := .suspended hq hy
  refine ⟨hH.suspended hq y p hy, List.forall_mem_cons.2 ⟨fun hreaches => ?_, hx.of_edge hedge⟩⟩
  exact hH.acyclic x (.head' hedge hreaches)

theorem Sound.admits_kept (hH : H.Sound) (hv : H.kept x = some v) (hx : H.Apart R x) :
    H.Admits R v.Mentions :=
  fun y p hy => ⟨hH.kept hv y p hy, hx.of_edge (.kept hv hy)⟩

theorem sound_empty : Sound empty where
  suspended h := by cases h
  kept h := by cases h
  bounded h := by cases h
  acyclic x h := by
    obtain ⟨y, hedge, -⟩ := Relation.TransGen.head'_iff.1 h
    cases hedge with
    | suspended hq => cases hq
    | kept hv => cases hv

theorem Describes.of_cells {s s' : Store} (h : H.Describes s) (hcells : s'.cells = s.cells) :
    H.Describes s' := by
  refine ⟨by rw [hcells]; exact h.size, fun x => ?_⟩
  rw [← h.kept, Store.kept?, Store.kept?, hcells]

theorem describes_empty : empty.Describes .empty := ⟨rfl, fun _ => rfl⟩

/-! ## A new cell -/

theorem knows_allocate_self (H : Heap) (q : Suspension) :
    (H.allocate q).Knows H.suspensions.length q :=
  List.getElem?_concat_length

theorem Knows.allocate {p : Suspension} (h : H.Knows x p) : (H.allocate q).Knows x p := by
  unfold Knows Heap.allocate
  rw [List.getElem?_append_left h.lt]
  exact h

theorem knows_allocate {p : Suspension} (h : (H.allocate q).Knows x p) :
    H.Knows x p ∨ x = H.suspensions.length ∧ p = q := by
  unfold Knows Heap.allocate at h
  rcases Nat.lt_trichotomy x H.suspensions.length with hlt | rfl | hlt
  · rw [List.getElem?_append_left hlt] at h
    exact .inl h
  · rw [List.getElem?_concat_length] at h
    exact .inr ⟨rfl, (Option.some.inj h).symm⟩
  · rw [List.getElem?_eq_none (by simp only [List.length_append, List.length_singleton]; omega)] at h
    cases h

theorem edge_allocate (x y : Nat) (h : (H.allocate q).Edge x y) :
    H.Edge x y ∨ x = H.suspensions.length ∧ ∃ p, q.Mentions y p := by
  cases h with
  | kept hv h => exact .inl (.kept hv h)
  | suspended hp h =>
      rcases knows_allocate hp with hp | ⟨rfl, rfl⟩
      · exact .inl (.suspended hp h)
      · exact .inr ⟨rfl, _, h⟩

/-- References lead to cells of the heap only. -/
theorem Sound.not_reaches_new (hH : H.Sound) (hx : H.Knows x q) :
    ¬H.Reaches x H.suspensions.length := by
  intro hreaches
  rcases Relation.ReflTransGen.cases_tail hreaches with heq | ⟨y, -, hedge⟩
  · exact absurd hx.lt (by rw [heq]; exact Nat.lt_irrefl x)
  · obtain ⟨p, hp⟩ := hedge.knows hH
    exact Nat.lt_irrefl _ hp.lt

theorem Sound.allocate (hH : H.Sound) (hq : H.Admits R q.Mentions) : (H.allocate q).Sound where
  suspended hp y p' hy := by
    rcases knows_allocate hp with hp | ⟨rfl, rfl⟩
    · exact (hH.suspended hp y p' hy).allocate
    · exact (hq y p' hy).1.allocate
  kept hv y p hy := (hH.kept hv y p hy).allocate
  bounded hv := by
    have := hH.bounded hv
    simp only [Heap.allocate, List.length_append, List.length_singleton]
    omega
  acyclic := acyclic_of_new_edges edge_allocate
    (fun y ⟨p, hp⟩ => hH.not_reaches_new (hq y p hp).1) hH.acyclic

theorem le_allocate (hq : H.Admits R q.Mentions) : Le R H (H.allocate q) where
  knows h := h.allocate
  apart {r x} hr hx hreaches := by
    rcases reaches_of_new_edges edge_allocate hreaches with h | ⟨-, y, ⟨p, hp⟩, h⟩
    · exact hx h
    · exact (hq y p hp).2 r hr h

/-- A new cell leads only where its suspension leads. -/
theorem Sound.apart_new (hH : H.Sound) (hq : H.Admits R q.Mentions)
    (hR : ∀ r ∈ R, r < H.suspensions.length) : (H.allocate q).Apart R H.suspensions.length := by
  intro r hr hreaches
  rcases Relation.ReflTransGen.cases_head hreaches with heq | ⟨y, hedge, hreaches⟩
  · exact absurd (hR r hr) (by rw [heq]; exact Nat.lt_irrefl r)
  · rcases edge_allocate _ _ hedge with hedge | ⟨-, p, hp⟩
    · cases hedge with
      | suspended hp => exact Nat.lt_irrefl _ hp.lt
      | kept hv => exact Nat.lt_irrefl _ (hH.bounded hv)
    · exact (le_allocate hq).apart hr ((hq y p hp).2 r hr) hreaches

theorem Describes.allocate {s : Store} (h : H.Describes s) (q : Suspension) :
    (H.allocate q).Describes s.allocate.2 where
  size := by
    simp only [Heap.allocate, List.length_append, List.length_singleton, Store.size_allocate, h.size]
  kept address := by
    rw [Store.kept?_allocate]
    exact h.kept address

/-! ## A new result -/

theorem kept_keep_self (H : Heap) (z : Nat) (v : Value) : (H.keep z v).kept z = some v :=
  Function.update_self ..

theorem kept_keep_of_ne (hx : x ≠ z) : (H.keep z v).kept x = H.kept x :=
  Function.update_of_ne hx ..

theorem edge_keep (x y : Nat) (h : (H.keep z v).Edge x y) :
    H.Edge x y ∨ x = z ∧ ∃ p, v.Mentions y p := by
  cases h with
  | suspended hq h => exact .inl (.suspended hq h)
  | kept hw h =>
      by_cases hx : x = z
      · subst hx
        rw [kept_keep_self] at hw
        cases hw
        exact .inr ⟨rfl, _, h⟩
      · rw [kept_keep_of_ne hx] at hw
        exact .inl (.kept hw h)

theorem Sound.keep (hH : H.Sound) (hz : H.Knows z q) (hv : H.Admits (z :: R) v.Mentions) :
    (H.keep z v).Sound where
  suspended := hH.suspended
  kept {x w} hw y p hy := by
    by_cases hx : x = z
    · subst hx
      rw [kept_keep_self] at hw
      cases hw
      exact (hv y p hy).1
    · rw [kept_keep_of_ne hx] at hw
      exact hH.kept hw y p hy
  bounded {x w} hw := by
    by_cases hx : x = z
    · subst hx
      exact hz.lt
    · rw [kept_keep_of_ne hx] at hw
      exact hH.bounded hw
  acyclic := acyclic_of_new_edges edge_keep
    (fun y ⟨p, hp⟩ => (hv y p hp).2 z List.mem_cons_self) hH.acyclic

theorem le_keep (hv : H.Admits R v.Mentions) : Le R H (H.keep z v) where
  knows h := h
  apart {r x} hr hx hreaches := by
    rcases reaches_of_new_edges edge_keep hreaches with h | ⟨-, y, ⟨p, hp⟩, h⟩
    · exact hx h
    · exact (hv y p hp).2 r hr h

theorem Describes.keep {s : Store} (h : H.Describes s) (hz : H.Knows z q) (v : Value) :
    (H.keep z v).Describes (s.keep z v) where
  size := by
    rw [Store.size_keep]
    exact h.size
  kept address := by
    have hlt : z < s.cells.size := by
      rw [← h.size]
      exact hz.lt
    rw [Store.kept?_keep hlt, h.kept]
    split
    · next heq => rw [heq, kept_keep_self]
    · next hne => rw [kept_keep_of_ne hne]

end Heap

/-! ## Plans mention what they are given -/

/-- The same data on both sides, mentioning only cells of the heap that are apart from `R`. -/
def apartKinship (setting : Setting) (R : List Nat) : Kinship where
  World := Heap
  le := Heap.Le R
  left := setting
  right := setting
  strict := False
  value H v w := w = v ∧ H.Admits R v.Mentions
  thunk H x y := y = x ∧ H.Admits R x.Mentions
  env H a b := b = a ∧ H.Admits R a.Mentions
  todo H t t' := t' = t ∧ ∀ c ∈ t, H.Admits R c.Mentions
  refl := Heap.Le.refl R
  trans := Heap.Le.trans
  value_mono hle h := ⟨h.1, h.2.mono hle⟩
  thunk_mono hle h := ⟨h.1, h.2.mono hle⟩
  env_mono hle h := ⟨h.1, h.2.mono hle⟩
  todo_mono hle h := ⟨h.1, fun c hc => (h.2 c hc).mono hle⟩
  atom {H _} h := ⟨rfl, H.admits_of_isAtom R h⟩
  empty {H} := ⟨rfl, H.admits_empty R⟩
  value_layer {_ _ w} h := by
    obtain ⟨rfl, h⟩ := h
    cases w with
    | closure => exact .closure ⟨rfl, Heap.admits_closure_iff.1 h⟩
    | cons =>
        obtain ⟨hhead, htail⟩ := Heap.admits_cons_iff.1 h
        exact .cons ⟨rfl, hhead⟩ ⟨rfl, htail⟩
    | int | bool | prim | nil => exact .atom trivial
  env_layer {_ _ b} h := by
    obtain ⟨rfl, h⟩ := h
    cases b with
    | empty => exact .empty
    | frame =>
        obtain ⟨hbound, hrest⟩ := Heap.admits_frame_iff.1 h
        exact .frame ⟨rfl, hbound⟩ ⟨rfl, hrest⟩
  ready h := by
    obtain ⟨rfl, h⟩ := h
    exact ⟨_, rfl, rfl, Heap.admits_ready_iff.1 h⟩
  ready_strict h := h.elim
  todo_nil := ⟨rfl, nofun⟩
  todo_cons hc h := by
    obtain ⟨rfl, h⟩ := h
    cases hc with
    | values ha hb =>
        obtain ⟨⟨rfl, ha⟩, ⟨rfl, hb⟩⟩ := And.intro ha hb
        exact ⟨rfl, List.forall_mem_cons.2 ⟨Heap.admits_or_iff.2 ⟨ha, hb⟩, h⟩⟩
    | tails ha hb =>
        obtain ⟨⟨heq, hleft⟩, ⟨heq', hright⟩⟩ := And.intro ha hb
        cases heq
        cases heq'
        have hleft' := (Heap.admits_cons_iff.1 hleft).2
        have hright' := (Heap.admits_cons_iff.1 hright).2
        exact ⟨rfl, List.forall_mem_cons.2 ⟨Heap.admits_or_iff.2 ⟨hleft', hright'⟩, h⟩⟩
    | envs ha hb =>
        obtain ⟨⟨rfl, ha⟩, ⟨rfl, hb⟩⟩ := And.intro ha hb
        exact ⟨rfl, List.forall_mem_cons.2 ⟨Heap.admits_or_iff.2 ⟨ha, hb⟩, h⟩⟩

end PolicyEval
