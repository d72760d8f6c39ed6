import PolicyEval.Proofs.Eval.Cells
import PolicyEval.Proofs.Sharing.Account

/-!
# Unfolding what is evaluated once

A thunk that is evaluated once is unfolded into one that is evaluated at every use.  The account of
the unfolded data needs no cell, so it evaluates again what the store has kept.  A store is faithful
if this makes no difference: what a cell keeps is what its expression yields whenever and wherever
it is evaluated again.

* `Setting.rerun` — evaluating at every use what was evaluated once.
* `Value.Unfolds`, `Thunk.Unfolds`, `Env.Unfolds` — data and what they unfold to.
* `unfoldKinship` — unfolding is a kinship.
* `Replays` — evaluating an expression again yields a certain value.
* `Faithful` — cells keep what evaluating again yields.
-/

namespace PolicyEval

/-! ## Disciplines without cells -/

/-- The discipline that evaluates at every use what was evaluated once. -/
def Discipline.rerun : Discipline → Discipline
  | .need => .name
  | d => d

/-- The setting that evaluates at every use what was evaluated once, with nesting unlimited. -/
def Setting.rerun (S : Setting) : Setting :=
  ⟨⟨S.policy.args.rerun, S.policy.lists.rerun⟩, none⟩

theorem Setting.rerun_axis (S : Setting) {axis : Policy → Discipline}
    (haxis : axis = Policy.args ∨ axis = Policy.lists) :
    axis S.rerun.policy = (axis S.policy).rerun := by
  rcases haxis with rfl | rfl <;> rfl

/-! ## Unfolded data -/

/-- What the cells of a store suspend, by address. -/
abbrev Holdings := Nat → Option Suspension

namespace Holdings

/-- The later holdings have all that the earlier ones have. -/
def le (W W' : Holdings) : Prop := ∀ address q, W address = some q → W' address = some q

theorem le.refl (W : Holdings) : W.le W := fun _ _ h => h

theorem le.trans {W W' W'' : Holdings} (h : W.le W') (h' : W'.le W'') : W.le W'' :=
  fun address q hq => h' address q (h address q hq)

/-- Adds a cell. -/
def withCell (W : Holdings) (address : Nat) (q : Suspension) : Holdings :=
  fun n => if n = address then some q else W n

theorem withCell_self (W : Holdings) (address : Nat) (q : Suspension) :
    W.withCell address q address = some q := if_pos rfl

theorem withCell_of_ne (W : Holdings) {address n : Nat} (q : Suspension) (h : n ≠ address) :
    W.withCell address q n = W n := if_neg h

end Holdings

mutual
/-- A value and what it unfolds to. -/
inductive Value.Unfolds (S : Setting) (W : Holdings) : Value → Value → Prop
  | atom {v : Value} (h : v.IsAtom) : Value.Unfolds S W v v
  | closure {tag tag' : Nat} {lambda : Lambda} {ρ ρ' : Env} (henv : Env.Unfolds S W ρ ρ') :
      Value.Unfolds S W (.closure tag lambda ρ) (.closure tag' lambda ρ')
  | cons {tag tag' : Nat} {x x' y y' : Thunk} (hhead : Thunk.Unfolds S W x x')
      (htail : Thunk.Unfolds S W y y') : Value.Unfolds S W (.cons tag x y) (.cons tag' x' y')

/-- A thunk and what it unfolds to. -/
inductive Thunk.Unfolds (S : Setting) (W : Holdings) : Thunk → Thunk → Prop
  | ready {v v' : Value} (h : Value.Unfolds S W v v') : Thunk.Unfolds S W (.ready v) (.ready v')
  | byName {ρ ρ' : Env} {e : Expr} (henv : Env.Unfolds S W ρ ρ') :
      Thunk.Unfolds S W (.byName ⟨S, ρ, e⟩) (.byName ⟨S.rerun, ρ', e⟩)
  | byNeed {address : Nat} {ρ ρ' : Env} {e : Expr} (hcell : W address = some ⟨S, ρ, e⟩)
      (henv : Env.Unfolds S W ρ ρ') :
      Thunk.Unfolds S W (.byNeed address ⟨S, ρ, e⟩) (.byName ⟨S.rerun, ρ', e⟩)

/-- An environment and what it unfolds to. -/
inductive Env.Unfolds (S : Setting) (W : Holdings) : Env → Env → Prop
  | empty : Env.Unfolds S W .empty .empty
  | frame {tag tag' : Nat} {name : Name} {x x' : Thunk} {rest rest' : Env}
      (hbound : Thunk.Unfolds S W x x') (hrest : Env.Unfolds S W rest rest') :
      Env.Unfolds S W (.frame tag name x rest) (.frame tag' name x' rest')
end

section

variable {S : Setting} {W W' : Holdings}

mutual
theorem Value.Unfolds.mono (hW : W.le W') {v w : Value} : v.Unfolds S W w → v.Unfolds S W' w
  | .atom h => .atom h
  | .closure henv => .closure (henv.mono hW)
  | .cons hhead htail => .cons (hhead.mono hW) (htail.mono hW)

theorem Thunk.Unfolds.mono (hW : W.le W') {x y : Thunk} : x.Unfolds S W y → x.Unfolds S W' y
  | .ready h => .ready (h.mono hW)
  | .byName henv => .byName (henv.mono hW)
  | .byNeed hcell henv => .byNeed (hW _ _ hcell) (henv.mono hW)

theorem Env.Unfolds.mono (hW : W.le W') {ρ ρ' : Env} : ρ.Unfolds S W ρ' → ρ.Unfolds S W' ρ'
  | .empty => .empty
  | .frame hbound hrest => .frame (hbound.mono hW) (hrest.mono hW)
end

theorem Value.Unfolds.layer {v w : Value} (h : v.Unfolds S W w) :
    v.SameLayer (Thunk.Unfolds S W) (Env.Unfolds S W) w := by
  cases h with
  | atom h => exact .atom h
  | closure henv => exact .closure henv
  | cons hhead htail => exact .cons hhead htail

theorem Env.Unfolds.layer {ρ ρ' : Env} (h : ρ.Unfolds S W ρ') :
    ρ.SameLayer (Thunk.Unfolds S W) (Env.Unfolds S W) ρ' := by
  cases h with
  | empty => exact .empty
  | frame hbound hrest => exact .frame hbound hrest

/-- The frames that the account makes are what the frames of the store unfold to, whatever their
marks. -/
theorem Env.Unfolds.framed {ρ ρ' : Env} (h : ρ.Unfolds S W ρ') {bs bs' : List (Name × Thunk)}
    (hbs : List.Forall₂ (fun b b' => b.1 = b'.1 ∧ b.2.Unfolds S W b'.2) bs bs') (s : Store)
    (σ : Seed) : (s.extend ρ bs).1.Unfolds S W (ρ'.framed σ bs') := by
  induction hbs with
  | nil => exact h
  | @cons b b' _ _ hb _ ih =>
      obtain ⟨name, x⟩ := b
      obtain ⟨name', x'⟩ := b'
      obtain ⟨rfl, hx⟩ := hb
      exact .frame hx ih

end

/-! ## Unfolding as a kinship -/

/-- Comparisons and what they unfold to, except that some comparisons of a thing with itself may be
left out. -/
abbrev UnfoldedQueue (S : Setting) (W : Holdings) : List Comparison → List Comparison → Prop :=
  Comparison.Queue (Value.Unfolds S W) (Env.Unfolds S W)

/-- Data and what they unfold to, under a setting and without its cells. -/
def unfoldKinship (S : Setting) : Kinship where
  World := Holdings
  le := Holdings.le
  left := S
  right := S.rerun
  strict := False
  value := Value.Unfolds S
  thunk := Thunk.Unfolds S
  env := Env.Unfolds S
  todo := UnfoldedQueue S
  refl := .refl
  trans := .trans
  value_mono hW h := h.mono hW
  thunk_mono hW h := h.mono hW
  env_mono hW h := h.mono hW
  todo_mono hW h := h.mono (fun h => h.mono hW) fun h => h.mono hW
  atom h := .atom h
  empty := .empty
  value_layer h := h.layer
  env_layer h := h.layer
  ready h := by
    cases h with
    | ready hv => exact ⟨_, rfl, hv⟩
  ready_strict h := h.elim
  todo_nil := .nil
  todo_cons hc h := .cons hc h

/-! ## Evaluating again -/

/-- Whatever an environment unfolds to from now on, and at whatever seed, evaluating the expression
there yields what the value unfolds to. -/
def Replays (S : Setting) (W : Holdings) (ρ : Env) (e : Expr) (v : Value) : Prop :=
  ∀ W' : Holdings, W.le W' → ∀ ρ' : Env, ρ.Unfolds S W' ρ' → ∀ σ : Seed,
    ∃ v', v.Unfolds S W' v' ∧ Yields none σ 0 (e.plan S.rerun ρ') v'

theorem Replays.mono {S : Setting} {W W' : Holdings} {ρ : Env} {e : Expr} {v : Value}
    (h : Replays S W ρ e v) (hW : W.le W') : Replays S W' ρ e v :=
  fun W'' hW' => h W'' (hW.trans hW')

/-- The cells that are known are there, and they keep what evaluating again yields. -/
structure Faithful (S : Setting) (W : Holdings) (s : Store) : Prop where
  cell_lt : ∀ {address q}, W address = some q → address < s.cells.size
  kept : ∀ {address ρ e v}, W address = some ⟨S, ρ, e⟩ → s.kept? address = some v →
    Replays S W ρ e v

namespace Faithful

variable {S : Setting} {W : Holdings} {s : Store}

theorem empty (s : Store) : Faithful S (fun _ => none) s := ⟨nofun, nofun⟩

/-- New objects and frames leave the cells alone. -/
theorem of_cells {s' : Store} (h : Faithful S W s) (hcells : s'.cells = s.cells) :
    Faithful S W s' where
  cell_lt hcell := hcells ▸ h.cell_lt hcell
  kept hcell hkept := h.kept hcell (by rwa [Store.kept?, hcells] at hkept)

theorem le_withCell (h : Faithful S W s) (q : Suspension) : W.le (W.withCell s.cells.size q) := by
  intro address q' hcell
  have hne : address ≠ s.cells.size := Nat.ne_of_lt (h.cell_lt hcell)
  rwa [W.withCell_of_ne q hne]

/-- A new cell keeps nothing yet. -/
theorem allocate (h : Faithful S W s) (q : Suspension) :
    Faithful S (W.withCell s.cells.size q) s.allocate.2 where
  cell_lt {address q'} hcell := by
    rw [Store.size_allocate]
    by_cases heq : address = s.cells.size
    · exact heq ▸ Nat.lt_succ_self _
    · exact Nat.lt_succ_of_lt (h.cell_lt ((W.withCell_of_ne q heq).symm.trans hcell))
  kept {address ρ e v} hcell hkept := by
    rw [Store.kept?_allocate] at hkept
    by_cases heq : address = s.cells.size
    · subst heq
      rw [Store.kept?, Array.getElem?_eq_none (Nat.le_refl _)] at hkept
      cases hkept
    · exact (h.kept ((W.withCell_of_ne q heq).symm.trans hcell) hkept).mono (h.le_withCell q)

/-- A cell may keep what evaluating its expression again yields. -/
theorem keep (h : Faithful S W s) {address : Nat} {ρ : Env} {e : Expr} {v : Value}
    (hcell : W address = some ⟨S, ρ, e⟩) (hv : Replays S W ρ e v) :
    Faithful S W (s.keep address v) where
  cell_lt hcell' := (Store.size_keep s address v).symm ▸ h.cell_lt hcell'
  kept {n ρ' e' u} hcell' hkept := by
    rw [Store.kept?_keep (h.cell_lt hcell)] at hkept
    by_cases heq : n = address
    · subst heq
      rw [if_pos rfl] at hkept
      cases hkept
      rw [hcell] at hcell'
      cases hcell'
      exact hv
    · rw [if_neg heq] at hkept
      exact h.kept hcell' hkept

end Faithful

end PolicyEval
