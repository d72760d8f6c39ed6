import PolicyEval.Store

/-!
# Cells and frames of a store

What the operations of a store do to the results it keeps: adding a cell keeps nothing, keeping a
result changes one cell, and putting bindings in front of an environment changes no cell.
-/

namespace PolicyEval

namespace Store

@[simp] theorem kept?_allocate (s : Store) (address : Nat) :
    s.allocate.2.kept? address = s.kept? address := by
  simp only [kept?, allocate, Array.getElem?_push]
  split
  · next h =>
      subst h
      rw [Array.getElem?_eq_none (Nat.le_refl _)]
      rfl
  · rfl

theorem kept?_keep {s : Store} {address : Nat} (h : address < s.cells.size) (v : Value)
    (n : Nat) : (s.keep address v).kept? n = if n = address then some v else s.kept? n := by
  simp only [kept?, keep, Array.getElem?_setIfInBounds]
  by_cases hn : n = address
  · subst hn
    rw [if_pos rfl, if_pos h, if_pos rfl]
    rfl
  · rw [if_neg (Ne.symm hn), if_neg hn]

@[simp] theorem size_keep (s : Store) (address : Nat) (v : Value) :
    (s.keep address v).cells.size = s.cells.size := by
  simp only [keep, Array.size_setIfInBounds]

@[simp] theorem size_allocate (s : Store) : s.allocate.2.cells.size = s.cells.size + 1 :=
  Array.size_push none

theorem extend_cells (s : Store) (env : Env) (bindings : List (Name × Thunk)) :
    (s.extend env bindings).2.cells = s.cells := by
  induction bindings with
  | nil => rfl
  | cons b bindings ih => simpa only [extend, freshTag] using ih

theorem extend_nextTag (s : Store) (env : Env) (bindings : List (Name × Thunk)) :
    (s.extend env bindings).2.nextTag = s.nextTag + bindings.length := by
  induction bindings with
  | nil => rfl
  | cons b bindings ih =>
      simp only [extend, freshTag, ih, List.length_cons]
      omega

/-- New frames take as many tags as there are bindings, and nothing else changes. -/
theorem extend_snd (s : Store) (env : Env) (bindings : List (Name × Thunk)) :
    (s.extend env bindings).2 = { s with nextTag := s.nextTag + bindings.length } := by
  rw [← s.extend_cells env bindings, ← s.extend_nextTag env bindings]

end Store

end PolicyEval
