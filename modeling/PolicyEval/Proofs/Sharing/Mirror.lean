import PolicyEval.Proofs.Eval.Cells
import PolicyEval.Proofs.Sharing.Account

/-!
# Matching a store with the account

What an evaluation makes in its store stands for what the account makes under its seeds.  A matching
records this, tag by tag and address by address; it only grows.  Data mirror data of the account if
they look alike and all their marks are matched.

* `Matching` — what tags and addresses stand for.
* `Value.Mirrors`, `Thunk.Mirrors`, `Env.Mirrors` — data that look alike.
* `Matching.Tracks` — a matching agrees with a store: kept results mirror what the account yields.
* `Pairing.kinship` — mirroring is a kinship.
-/

namespace PolicyEval

/-- The settings of an evaluation and of the account it is compared with, and whether a thunk that
the evaluation runs at every use may be one that is evaluated once by the account. -/
structure Pairing where
  store : Setting
  account : Setting
  reruns : Prop

/-- What the tags of objects and frames and the addresses of cells stand for. -/
structure Matching where
  object : Nat → Option Value
  frame : Nat → Option Env
  cell : Nat → Option (Nat × Suspension)

namespace Matching

/-- The later matching knows all that the earlier one knows. -/
structure le (W W' : Matching) : Prop where
  object : ∀ {tag v}, W.object tag = some v → W'.object tag = some v
  frame : ∀ {tag ρ}, W.frame tag = some ρ → W'.frame tag = some ρ
  cell : ∀ {address c}, W.cell address = some c → W'.cell address = some c

theorem le.refl (W : Matching) : W.le W := ⟨id, id, id⟩

theorem le.trans {W W' W'' : Matching} (h : W.le W') (h' : W'.le W'') : W.le W'' :=
  ⟨fun ht => h'.object (h.object ht), fun ht => h'.frame (h.frame ht),
    fun ht => h'.cell (h.cell ht)⟩

/-- The matching that knows nothing. -/
def empty : Matching := ⟨fun _ => none, fun _ => none, fun _ => none⟩

/-- Lets a tag stand for a closure or a list cell. -/
def withObject (W : Matching) (tag : Nat) (v : Value) : Matching :=
  { W with object := fun n => if n = tag then some v else W.object n }

/-- Lets a tag stand for an environment. -/
def withFrame (W : Matching) (tag : Nat) (ρ : Env) : Matching :=
  { W with frame := fun n => if n = tag then some ρ else W.frame n }

/-- Lets an address stand for a thunk. -/
def withCell (W : Matching) (address : Nat) (c : Nat × Suspension) : Matching :=
  { W with cell := fun n => if n = address then some c else W.cell n }

/-- Lets consecutive tags stand for the environments that putting bindings in front makes. -/
def withFrames (W : Matching) (σ : Seed) (base : Nat) (ρ : Env) :
    List (Name × Thunk) → Matching
  | [] => W
  | (name, x) :: rest =>
    (W.withFrames σ base ρ rest).withFrame (base + rest.length) (ρ.framed σ ((name, x) :: rest))

@[simp] theorem withObject_object_self (W : Matching) (tag : Nat) (v : Value) :
    (W.withObject tag v).object tag = some v := if_pos rfl

@[simp] theorem withFrame_frame_self (W : Matching) (tag : Nat) (ρ : Env) :
    (W.withFrame tag ρ).frame tag = some ρ := if_pos rfl

@[simp] theorem withCell_cell_self (W : Matching) (address : Nat) (c : Nat × Suspension) :
    (W.withCell address c).cell address = some c := if_pos rfl

theorem withFrames_cell (W : Matching) (σ : Seed) (base : Nat) (ρ : Env)
    (bindings : List (Name × Thunk)) : (W.withFrames σ base ρ bindings).cell = W.cell := by
  induction bindings with
  | nil => rfl
  | cons b rest ih => exact ih

theorem withFrames_object (W : Matching) (σ : Seed) (base : Nat) (ρ : Env)
    (bindings : List (Name × Thunk)) : (W.withFrames σ base ρ bindings).object = W.object := by
  induction bindings with
  | nil => rfl
  | cons b rest ih => exact ih

theorem le_withObject {W : Matching} {tag : Nat} (h : ∀ v, W.object tag ≠ some v) (v : Value) :
    W.le (W.withObject tag v) := by
  refine ⟨fun {n u} hn => ?_, id, id⟩
  have hne : n ≠ tag := fun heq => h u (heq ▸ hn)
  exact (if_neg hne).trans hn

theorem le_withFrame {W : Matching} {tag : Nat} (h : ∀ ρ, W.frame tag ≠ some ρ) (ρ : Env) :
    W.le (W.withFrame tag ρ) := by
  refine ⟨id, fun {n u} hn => ?_, id⟩
  have hne : n ≠ tag := fun heq => h u (heq ▸ hn)
  exact (if_neg hne).trans hn

theorem le_withCell {W : Matching} {address : Nat} (h : ∀ c, W.cell address ≠ some c)
    (c : Nat × Suspension) : W.le (W.withCell address c) := by
  refine ⟨id, id, fun {n u} hn => ?_⟩
  have hne : n ≠ address := fun heq => h u (heq ▸ hn)
  exact (if_neg hne).trans hn

end Matching

/-! ## Mirrored data -/

mutual
/-- A value that looks like a value of the account. -/
inductive Value.Mirrors (P : Pairing) (W : Matching) : Value → Value → Prop
  | atom {v : Value} (h : v.IsAtom) : Value.Mirrors P W v v
  | closure {tag tag' : Nat} {lambda : Lambda} {ρ ρ' : Env}
      (hobject : W.object tag = some (.closure tag' lambda ρ')) (henv : Env.Mirrors P W ρ ρ') :
      Value.Mirrors P W (.closure tag lambda ρ) (.closure tag' lambda ρ')
  | cons {tag tag' : Nat} {x x' y y' : Thunk} (hobject : W.object tag = some (.cons tag' x' y'))
      (hhead : Thunk.Mirrors P W x x') (htail : Thunk.Mirrors P W y y') :
      Value.Mirrors P W (.cons tag x y) (.cons tag' x' y')

/-- A thunk that looks like a thunk of the account. -/
inductive Thunk.Mirrors (P : Pairing) (W : Matching) : Thunk → Thunk → Prop
  | ready {v v' : Value} (h : Value.Mirrors P W v v') : Thunk.Mirrors P W (.ready v) (.ready v')
  | byName {ρ ρ' : Env} {e : Expr} (henv : Env.Mirrors P W ρ ρ') :
      Thunk.Mirrors P W (.byName ⟨P.store, ρ, e⟩) (.byName ⟨P.account, ρ', e⟩)
  | rerun {mark : Nat} {ρ ρ' : Env} {e : Expr} (hreruns : P.reruns)
      (henv : Env.Mirrors P W ρ ρ') :
      Thunk.Mirrors P W (.byName ⟨P.store, ρ, e⟩) (.byNeed mark ⟨P.account, ρ', e⟩)
  | byNeed {address mark : Nat} {ρ ρ' : Env} {e : Expr}
      (hcell : W.cell address = some (mark, ⟨P.account, ρ', e⟩)) (henv : Env.Mirrors P W ρ ρ') :
      Thunk.Mirrors P W (.byNeed address ⟨P.store, ρ, e⟩) (.byNeed mark ⟨P.account, ρ', e⟩)

/-- An environment that looks like an environment of the account. -/
inductive Env.Mirrors (P : Pairing) (W : Matching) : Env → Env → Prop
  | empty : Env.Mirrors P W .empty .empty
  | frame {tag tag' : Nat} {name : Name} {x x' : Thunk} {rest rest' : Env}
      (hframe : W.frame tag = some (.frame tag' name x' rest')) (hbound : Thunk.Mirrors P W x x')
      (hrest : Env.Mirrors P W rest rest') :
      Env.Mirrors P W (.frame tag name x rest) (.frame tag' name x' rest')
end

section

variable {P : Pairing} {W W' : Matching}

mutual
theorem Value.Mirrors.mono (hW : W.le W') {v w : Value} : v.Mirrors P W w → v.Mirrors P W' w
  | .atom h => .atom h
  | .closure hobject henv => .closure (hW.object hobject) (henv.mono hW)
  | .cons hobject hhead htail => .cons (hW.object hobject) (hhead.mono hW) (htail.mono hW)

theorem Thunk.Mirrors.mono (hW : W.le W') {x y : Thunk} : x.Mirrors P W y → x.Mirrors P W' y
  | .ready h => .ready (h.mono hW)
  | .byName henv => .byName (henv.mono hW)
  | .rerun hreruns henv => .rerun hreruns (henv.mono hW)
  | .byNeed hcell henv => .byNeed (hW.cell hcell) (henv.mono hW)

theorem Env.Mirrors.mono (hW : W.le W') {ρ ρ' : Env} : ρ.Mirrors P W ρ' → ρ.Mirrors P W' ρ'
  | .empty => .empty
  | .frame hframe hbound hrest => .frame (hW.frame hframe) (hbound.mono hW) (hrest.mono hW)
end

theorem Value.Mirrors.layer {v w : Value} (h : v.Mirrors P W w) :
    v.SameLayer (Thunk.Mirrors P W) (Env.Mirrors P W) w := by
  cases h with
  | atom h => exact .atom h
  | closure _ henv => exact .closure henv
  | cons _ hhead htail => exact .cons hhead htail

theorem Env.Mirrors.layer {ρ ρ' : Env} (h : ρ.Mirrors P W ρ') :
    ρ.SameLayer (Thunk.Mirrors P W) (Env.Mirrors P W) ρ' := by
  cases h with
  | empty => exact .empty
  | frame _ hbound hrest => exact .frame hbound hrest

/-- One tag stands for one object, so what is identical in the store coincides by the account. -/
theorem Value.Mirrors.eq_of_identical {a b a' b' : Value} (ha : a.Mirrors P W a')
    (hb : b.Mirrors P W b') (h : a.identical b = true) : a' = b' := by
  cases ha with
  | atom hatom => simp [Value.identical_of_isAtom (.inl hatom)] at h
  | closure hobject _ =>
      cases hb with
      | atom hatom => simp [Value.identical_of_isAtom (.inr hatom)] at h
      | cons => cases h
      | closure hobject' _ =>
          simp only [Value.identical, Bool.and_eq_true, decide_eq_true_eq] at h
          rw [h.2, hobject'] at hobject
          exact (Option.some.inj hobject).symm
  | cons hobject _ _ =>
      cases hb with
      | atom hatom => simp [Value.identical_of_isAtom (.inr hatom)] at h
      | closure => cases h
      | cons hobject' _ _ =>
          simp only [Value.identical, decide_eq_true_eq] at h
          rw [h, hobject'] at hobject
          exact (Option.some.inj hobject).symm

theorem Env.Mirrors.eq_of_same {a b a' b' : Env} (ha : a.Mirrors P W a') (hb : b.Mirrors P W b')
    (h : a.same b = true) : a' = b' := by
  cases ha with
  | empty =>
      cases hb with
      | empty => rfl
      | frame => cases h
  | frame hframe _ _ =>
      cases hb with
      | empty => cases h
      | frame hframe' _ _ =>
          simp only [Env.same, beq_iff_eq] at h
          rw [h, hframe'] at hframe
          exact (Option.some.inj hframe).symm

end

/-! ## Matchings and stores -/

namespace Matching

/-- Every tag and address that stands for something was handed out by the store, and a kept result
mirrors what the account yields for the thunk. -/
structure Tracks (P : Pairing) (W : Matching) (s : Store) : Prop where
  object_lt : ∀ {tag v}, W.object tag = some v → tag < s.nextTag
  frame_lt : ∀ {tag ρ}, W.frame tag = some ρ → tag < s.nextTag
  cell_lt : ∀ {address c}, W.cell address = some c → address < s.cells.size
  kept : ∀ {address mark ρ' e v}, W.cell address = some (mark, ⟨P.account, ρ', e⟩) →
    s.kept? address = some v →
      ∃ v', v.Mirrors P W v' ∧ Yields none (Seed.ofCode mark) 0 (e.plan P.account ρ') v'

namespace Tracks

variable {P : Pairing} {W W' : Matching} {s : Store}

theorem empty (s : Store) : Tracks P .empty s := ⟨nofun, nofun, nofun, nofun⟩

theorem object_fresh (h : Tracks P W s) (v : Value) : W.object s.nextTag ≠ some v :=
  fun heq => Nat.lt_irrefl _ (h.object_lt heq)

theorem frame_fresh (h : Tracks P W s) (ρ : Env) : W.frame s.nextTag ≠ some ρ :=
  fun heq => Nat.lt_irrefl _ (h.frame_lt heq)

theorem cell_fresh (h : Tracks P W s) (c : Nat × Suspension) : W.cell s.cells.size ≠ some c :=
  fun heq => Nat.lt_irrefl _ (h.cell_lt heq)

/-- Kept results go on to mirror what the account yields in every later matching. -/
theorem kept_mono (h : Tracks P W s) (hW : W.le W') {address mark : Nat} {ρ' : Env} {e : Expr}
    {v : Value} (hcell : W.cell address = some (mark, ⟨P.account, ρ', e⟩))
    (hkept : s.kept? address = some v) :
    ∃ v', v.Mirrors P W' v' ∧ Yields none (Seed.ofCode mark) 0 (e.plan P.account ρ') v' := by
  obtain ⟨v', hv, hyields⟩ := h.kept hcell hkept
  exact ⟨v', hv.mono hW, hyields⟩

/-- A new tag may stand for any object. -/
theorem withObject (h : Tracks P W s) (v : Value) :
    Tracks P (W.withObject s.nextTag v) s.freshTag.2 where
  object_lt {tag u} htag := by
    by_cases heq : tag = s.nextTag
    · exact heq ▸ Nat.lt_succ_self _
    · exact Nat.lt_succ_of_lt (h.object_lt ((if_neg heq).symm.trans htag))
  frame_lt htag := Nat.lt_succ_of_lt (h.frame_lt htag)
  cell_lt hcell := h.cell_lt hcell
  kept hcell hkept := h.kept_mono (le_withObject h.object_fresh v) hcell hkept

/-- A new tag may stand for any environment. -/
theorem withFrame (h : Tracks P W s) (ρ : Env) :
    Tracks P (W.withFrame s.nextTag ρ) s.freshTag.2 where
  object_lt htag := Nat.lt_succ_of_lt (h.object_lt htag)
  frame_lt {tag u} htag := by
    by_cases heq : tag = s.nextTag
    · exact heq ▸ Nat.lt_succ_self _
    · exact Nat.lt_succ_of_lt (h.frame_lt ((if_neg heq).symm.trans htag))
  cell_lt hcell := h.cell_lt hcell
  kept hcell hkept := h.kept_mono (le_withFrame h.frame_fresh ρ) hcell hkept

/-- The address of a new cell may stand for any thunk. -/
theorem withCell (h : Tracks P W s) (c : Nat × Suspension) :
    Tracks P (W.withCell s.cells.size c) s.allocate.2 where
  object_lt htag := h.object_lt htag
  frame_lt htag := h.frame_lt htag
  cell_lt {address u} hcell := by
    rw [Store.size_allocate]
    by_cases heq : address = s.cells.size
    · exact heq ▸ Nat.lt_succ_self _
    · exact Nat.lt_succ_of_lt (h.cell_lt ((if_neg heq).symm.trans hcell))
  kept {address mark ρ' e v} hcell hkept := by
    rw [Store.kept?_allocate] at hkept
    by_cases heq : address = s.cells.size
    · -- Nothing was kept at this address before the cell was there.
      subst heq
      rw [Store.kept?, Array.getElem?_eq_none (Nat.le_refl _)] at hkept
      cases hkept
    · exact h.kept_mono (le_withCell h.cell_fresh c) ((if_neg heq).symm.trans hcell) hkept

/-- A new list cell mirrors the one that its tag stands for. -/
theorem cons_mirrors (h : Tracks P W s) (mark : Nat) {x x' y y' : Thunk}
    (hhead : x.Mirrors P W x') (htail : y.Mirrors P W y') :
    let W' := W.withObject s.nextTag (.cons mark x' y')
    W.le W' ∧ (Value.cons s.nextTag x y).Mirrors P W' (.cons mark x' y') := by
  have hle := le_withObject h.object_fresh (.cons mark x' y')
  exact ⟨hle, .cons (withObject_object_self _ _ _) (hhead.mono hle) (htail.mono hle)⟩

/-- A new closure mirrors the one that its tag stands for. -/
theorem closure_mirrors (h : Tracks P W s) (mark : Nat) (lambda : Lambda) {ρ ρ' : Env}
    (henv : ρ.Mirrors P W ρ') :
    let W' := W.withObject s.nextTag (.closure mark lambda ρ')
    W.le W' ∧ (Value.closure s.nextTag lambda ρ).Mirrors P W' (.closure mark lambda ρ') := by
  have hle := le_withObject h.object_fresh (.closure mark lambda ρ')
  exact ⟨hle, .closure (withObject_object_self _ _ _) (henv.mono hle)⟩

/-- A new thunk that is evaluated once mirrors the one that its address stands for. -/
theorem byNeed_mirrors (h : Tracks P W s) (mark : Nat) (e : Expr) {ρ ρ' : Env}
    (henv : ρ.Mirrors P W ρ') :
    let W' := W.withCell s.cells.size (mark, ⟨P.account, ρ', e⟩)
    W.le W' ∧ (Thunk.byNeed s.cells.size ⟨P.store, ρ, e⟩).Mirrors P W'
      (.byNeed mark ⟨P.account, ρ', e⟩) := by
  have hle := le_withCell h.cell_fresh (mark, ⟨P.account, ρ', e⟩)
  exact ⟨hle, .byNeed (withCell_cell_self _ _ _) (henv.mono hle)⟩

/-- A cell may keep a value that mirrors what the account yields for its thunk. -/
theorem keep (h : Tracks P W s) {address mark : Nat} {ρ' : Env} {e : Expr} {v v' : Value}
    (hcell : W.cell address = some (mark, ⟨P.account, ρ', e⟩)) (hv : v.Mirrors P W v')
    (hyields : Yields none (Seed.ofCode mark) 0 (e.plan P.account ρ') v') :
    Tracks P W (s.keep address v) where
  object_lt htag := h.object_lt htag
  frame_lt htag := h.frame_lt htag
  cell_lt hcell' := (Store.size_keep s address v).symm ▸ h.cell_lt hcell'
  kept {n mark₁ ρ₁ e₁ u} hcell' hkept := by
    rw [Store.kept?_keep (h.cell_lt hcell)] at hkept
    by_cases heq : n = address
    · subst heq
      rw [if_pos rfl] at hkept
      cases hkept
      rw [hcell] at hcell'
      cases hcell'
      exact ⟨v', hv, hyields⟩
    · rw [if_neg heq] at hkept
      exact h.kept hcell' hkept

/-- Putting mirrored bindings in front of mirrored environments makes mirrored environments. -/
theorem withFrames (h : Tracks P W s) (σ : Seed) {ρ ρ' : Env} (henv : ρ.Mirrors P W ρ')
    {bs bs' : List (Name × Thunk)}
    (hbs : List.Forall₂ (fun b b' => b.1 = b'.1 ∧ b.2.Mirrors P W b'.2) bs bs') :
    Tracks P (W.withFrames σ s.nextTag ρ' bs') (s.extend ρ bs).2 ∧
      W.le (W.withFrames σ s.nextTag ρ' bs') ∧
      (s.extend ρ bs).1.Mirrors P (W.withFrames σ s.nextTag ρ' bs') (ρ'.framed σ bs') := by
  induction hbs with
  | nil => exact ⟨h, .refl W, henv⟩
  | @cons b b' rest rest' hb hrest ih =>
      obtain ⟨name, x⟩ := b
      obtain ⟨name', x'⟩ := b'
      obtain ⟨rfl, hx⟩ := hb
      obtain ⟨htracks, hle, hinner⟩ := ih
      -- The outermost frame gets the tag after those of the frames inside.
      have htag : (s.extend ρ rest).2.nextTag = s.nextTag + rest'.length := by
        rw [Store.extend_nextTag, hrest.length_eq]
      have hstep := htracks.withFrame (ρ'.framed σ ((name, x') :: rest'))
      have hgrows := le_withFrame htracks.frame_fresh (ρ'.framed σ ((name, x') :: rest'))
      rw [htag] at hstep hgrows
      refine ⟨hstep, hle.trans hgrows, ?_⟩
      have hframe : (s.extend ρ ((name, x) :: rest)).1 =
          .frame (s.nextTag + rest'.length) name x (s.extend ρ rest).1 := by
        simp only [Store.extend, Store.freshTag, htag]
      rw [hframe]
      exact .frame (withFrame_frame_self _ _ _) (hx.mono (hle.trans hgrows)) (hinner.mono hgrows)

end Tracks

end Matching

end PolicyEval
