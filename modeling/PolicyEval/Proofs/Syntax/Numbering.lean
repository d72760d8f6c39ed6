import Mathlib.Data.List.Nodup
import PolicyEval.Proofs.Eval.Realm
import PolicyEval.Proofs.Syntax.RoundTrip

/-!
# Nodes and names of a program are known by their numbers

In a tree that was read from a source, the numbers count the nodes in post-order, so no two nodes
have the same one.  All names come from one table, so the number of a name says what it is.

* `Expr.IsNumbered.nodeIds` — the numbers of the nodes in post-order.
* `Realm.IsCoherent` — functions are known by their numbers, and so are names.
* `Realm.ofSource`, `Realm.ofSource_isCoherent` — the data of a program that was read are coherent.
-/

namespace PolicyEval

namespace Expr

mutual
/-- The numbers of the nodes, in post-order. -/
theorem IsNumbered.nodeIds {n : Nat} : (e : Expr) → e.IsNumbered n →
    (e.pushNodes #[]).toList.map nodeId = List.range' n e.size
  | int p _, h | bool p _, h | null p, h | ident p _, h | prim p _, h => by
      simp only [IsNumbered, withoutSpans, bare, relocate, numberFrom] at h
      injection h with hplace
      injection hplace with hid
      simp [pushNodes, size, nodeId, place, hid]
  | unary p _ operand, h => by
      simp only [IsNumbered, withoutSpans, bare, relocate, numberFrom, size_relocate] at h
      injection h with hplace _ hoperand
      injection hplace with hid
      simp [pushNodes, size, nodeId, place, hid, List.range'_1_concat,
        ← IsNumbered.nodeIds operand hoperand]
  | map p _ body, h => by
      simp only [IsNumbered, withoutSpans, bare, relocate, numberFrom, size_relocate] at h
      injection h with hplace _ hbody
      injection hplace with hid
      simp [pushNodes, size, nodeId, place, hid, List.range'_1_concat,
        ← IsNumbered.nodeIds body hbody]
  | binary p _ left right, h => by
      simp only [IsNumbered, withoutSpans, bare, relocate, numberFrom, size_relocate] at h
      injection h with hplace _ hleft hright
      injection hplace with hid
      rw [pushNodes, pushNodes_eq]
      simp [size, nodeId, place, hid, List.range'_1_concat, Nat.add_assoc,
        ← List.range'_append_1 (m := left.size), ← IsNumbered.nodeIds left hleft,
        ← IsNumbered.nodeIds right hright]
  | call p callee args, h => by
      simp only [IsNumbered, withoutSpans, bare, relocate, numberFrom, size_relocate,
        sizeList_relocate] at h
      injection h with hplace hcallee hargs
      injection hplace with hid
      rw [pushNodes, pushNodesList_eq]
      simp [size, nodeId, place, hid, List.range'_1_concat, Nat.add_assoc,
        ← List.range'_append_1 (m := callee.size), ← IsNumbered.nodeIds callee hcallee,
        ← AreNumbered.nodeIds args hargs]
  | cond p test yes no, h => by
      simp only [IsNumbered, withoutSpans, bare, relocate, numberFrom, size_relocate] at h
      injection h with hplace htest hyes hno
      injection hplace with hid
      rw [pushNodes, pushNodes_eq, pushNodes_eq _ yes]
      simp [size, nodeId, place, hid, List.range'_1_concat, Nat.add_assoc,
        ← List.range'_append_1 (m := test.size), ← List.range'_append_1 (m := yes.size),
        ← IsNumbered.nodeIds test htest, ← IsNumbered.nodeIds yes hyes]
      rw [← Nat.add_assoc]
      exact IsNumbered.nodeIds no hno
  | letIn p defs body, h => by
      simp only [IsNumbered, withoutSpans, bare, relocate, numberFrom, size_relocate,
        sizeDefs_relocate] at h
      injection h with hplace hdefs hbody
      injection hplace with hid
      rw [pushNodes, pushNodes_eq]
      simp [size, nodeId, place, hid, List.range'_1_concat, Nat.add_assoc,
        ← List.range'_append_1 (m := sizeDefs defs), ← DefsAreNumbered.nodeIds defs hdefs,
        ← IsNumbered.nodeIds body hbody]

theorem AreNumbered.nodeIds {n : Nat} : (es : List Expr) → AreNumbered n es →
    (pushNodesList #[] es).toList.map nodeId = List.range' n (sizeList es)
  | [], _ => rfl
  | e :: es, h => by
      simp only [AreNumbered, bareList, relocateList, numberListFrom, size_relocate,
        List.cons.injEq] at h
      rw [pushNodesList, pushNodesList_eq]
      simp [sizeList, ← List.range'_append_1, ← IsNumbered.nodeIds e h.1,
        ← AreNumbered.nodeIds es h.2]

theorem DefsAreNumbered.nodeIds {n : Nat} : (ds : List (Binder × Expr)) → DefsAreNumbered n ds →
    (pushNodesDefs #[] ds).toList.map nodeId = List.range' n (sizeDefs ds)
  | [], _ => rfl
  | (b, e) :: ds, h => by
      simp only [DefsAreNumbered, bareDefs, relocateDefs, numberDefsFrom, size_relocate,
        List.cons.injEq, Prod.mk.injEq] at h
      rw [pushNodesDefs, pushNodesDefs_eq]
      simp [sizeDefs, ← List.range'_append_1, ← IsNumbered.nodeIds e h.1.2,
        ← DefsAreNumbered.nodeIds ds h.2]
end

/-- No two nodes have the same number. -/
theorem IsNumbered.eq_of_nodeId_eq {n : Nat} {e : Expr} (h : e.IsNumbered n) {d d' : Expr}
    (hd : d ∈ e.postorder) (hd' : d' ∈ e.postorder) (hid : d.nodeId = d'.nodeId) : d = d' := by
  have hnodup : (e.postorder.toList.map nodeId).Nodup := by
    rw [postorder, IsNumbered.nodeIds e h]
    exact List.nodup_range' 1
  exact List.inj_on_of_nodup_map hnodup (Array.mem_toList_iff.2 hd) (Array.mem_toList_iff.2 hd') hid

theorem size_le_sizeList {es : List Expr} {e : Expr} (h : e ∈ es) : e.size ≤ sizeList es := by
  induction es with
  | nil => cases h
  | cons e' es ih =>
      rcases List.mem_cons.1 h with rfl | h
      · exact Nat.le_add_right _ _
      · exact Nat.le_trans (ih h) (Nat.le_add_left _ _)

theorem size_le_sizeDefs {ds : List (Binder × Expr)} {d : Binder × Expr} (h : d ∈ ds) :
    d.2.size ≤ sizeDefs ds := by
  induction ds with
  | nil => cases h
  | cons d' ds ih =>
      rcases List.mem_cons.1 h with rfl | h
      · exact Nat.le_add_right _ _
      · exact Nat.le_trans (ih h) (Nat.le_add_left _ _)

theorem size_lt_of_mem_parts {e part : Expr} (h : part ∈ e.parts) : part.size < e.size := by
  cases e with
  | int | bool | null | ident | prim => simp [parts] at h
  | unary | binary | map | cond =>
      simp only [parts, List.mem_cons, List.not_mem_nil, or_false] at h
      simp only [size]
      grind
  | call place callee args =>
      simp only [size]
      rcases List.mem_cons.1 h with rfl | h
      · omega
      · have hle := size_le_sizeList h
        omega
  | letIn place defs body =>
      simp only [size]
      rcases List.mem_append.1 h with h | h
      · obtain ⟨d, hd, rfl⟩ := List.mem_map.1 h
        have hle := size_le_sizeDefs hd
        omega
      · cases List.mem_singleton.1 h
        omega

/-- What an expression hands on to its parts, it hands on to all its nodes. -/
theorem forall_mem_postorder {p : Expr → Prop} (hpart : ∀ e, p e → ∀ part ∈ e.parts, p part)
    {e : Expr} (he : p e) : ∀ d ∈ e.postorder, p d := by
  induction hsize : e.size using Nat.strongRecOn generalizing e with
  | ind n ih =>
      subst hsize
      intro d hd
      rcases mem_postorder.1 hd with rfl | ⟨part, hmem, hd⟩
      · exact he
      · exact ih _ (size_lt_of_mem_parts hmem) (hpart e he part hmem) rfl d hd

theorem FitList.of_mem {names : Interner} {good : Int → Prop} {es : List Expr}
    (h : FitList names good es) {e : Expr} (he : e ∈ es) : e.Fits names good := by
  induction es with
  | nil => cases he
  | cons e' es ih =>
      rcases List.mem_cons.1 he with rfl | he
      · exact h.1
      · exact ih h.2 he

theorem FitDefs.of_mem {names : Interner} {good : Int → Prop} {ds : List (Binder × Expr)}
    (h : FitDefs names good ds) {d : Binder × Expr} (hd : d ∈ ds) :
    names.Knows d.1.name ∧ d.2.Fits names good := by
  induction ds with
  | nil => cases hd
  | cons d' ds ih =>
      rcases List.mem_cons.1 hd with rfl | hd
      · exact ⟨h.1, h.2.1⟩
      · exact ih h.2.2 hd

theorem Fits.of_mem_parts {names : Interner} {good : Int → Prop} (e : Expr)
    (h : e.Fits names good) : ∀ part ∈ e.parts, part.Fits names good := by
  intro part hpart
  cases e with
  | int | bool | null | ident | prim => simp [parts] at hpart
  | unary | binary | map | cond =>
      simp only [parts, List.mem_cons, List.not_mem_nil, or_false] at hpart
      simp only [Fits] at h
      grind
  | call place callee args =>
      rcases List.mem_cons.1 hpart with rfl | hpart
      · exact h.1
      · exact FitList.of_mem h.2 hpart
  | letIn place defs body =>
      rcases List.mem_append.1 hpart with hpart | hpart
      · obtain ⟨d, hd, rfl⟩ := List.mem_map.1 hpart
        exact (FitDefs.of_mem h.2.1 hd).2
      · cases List.mem_singleton.1 hpart
        exact h.2.2

end Expr

/-! ## Names -/

/-- A name that a table has for its text stands there under its number. -/
theorem Interner.texts_eq_of_get? {names : Interner} {name : Name}
    (h : names.get? name.text = some name) :
    names.texts.toList[name.index]? = some name.text := by
  obtain ⟨⟨texts⟩⟩ := names
  obtain ⟨index, hindex, hname⟩ := Option.map_eq_some_iff.1 h
  rw [← hname]
  simp only [Interner.indexOf?, List.idxOf?_toArray] at hindex
  obtain ⟨hlt, htext, -⟩ := List.idxOf?_eq_some_iff.1 hindex
  rw [List.getElem?_eq_getElem hlt, htext]

/-- Names of one table with the same number are one and the same. -/
theorem Interner.eq_of_index_eq {names : Interner} {a b : Name}
    (ha : names.get? a.text = some a) (hb : names.get? b.text = some b)
    (h : a.index = b.index) : a = b := by
  have htext := texts_eq_of_get? ha
  rw [h, texts_eq_of_get? hb] at htext
  cases a
  cases b
  cases htext
  cases h
  rfl

/-! ## The data of a program that was read -/

/-- All functions with one number are one and the same, and so are all names with one number. -/
structure Realm.IsCoherent (R : Realm) : Prop where
  map_eq : ∀ {place place' params params' body body'}, R.node (.map place params body) →
    R.node (.map place' params' body') → place.id = place'.id →
      Expr.map place params body = .map place' params' body'
  name_eq : ∀ {name name'}, R.name name → R.name name' → name.index = name'.index → name = name'

/-- The data that a program deals with which fits a table of names: its own nodes, and names of the
table. -/
def Realm.ofSource (setting : Setting) (names : Interner) (root : Expr)
    (hfits : root.Fits names IsLiteral) : Realm where
  setting := setting
  node e := e ∈ root.postorder
  name := names.Knows
  base := 0
  map_names hnode b hb :=
    (Expr.forall_mem_postorder Expr.Fits.of_mem_parts hfits _ hnode).1 b hb
  letIn_names hnode _ hd :=
    (Expr.FitDefs.of_mem (Expr.forall_mem_postorder Expr.Fits.of_mem_parts hfits _ hnode).2.1 hd).1

/-- A program that was read from a source is coherent. -/
theorem Realm.ofSource_isCoherent (setting : Setting) {names names' : Interner} {source : String}
    {root : Expr} (h : Expr.ofSourceWith names source = .ok (root, names')) :
    (Realm.ofSource setting names' root (Expr.fits_of_ofSourceWith h).1).IsCoherent where
  map_eq hnode hnode' hid :=
    (Expr.fits_of_ofSourceWith h).2.eq_of_nodeId_eq hnode hnode' hid
  name_eq ha hb hindex := Interner.eq_of_index_eq ha.2 hb.2 hindex

end PolicyEval
