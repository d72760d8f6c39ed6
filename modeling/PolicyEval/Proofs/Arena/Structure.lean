import PolicyEval.Proofs.Arena.Filing
import PolicyEval.Proofs.Syntax.Partition

/-!
# The structure of the arena of a source

The arena that a source is read into lists the nodes of its tree in post-order, its side tables are
partitioned by the lists of the nodes, and its spans are nested like the nodes.

Offsets are cut to 32 bits when tokens are read, so what holds of the spans of an arena holds of the
offsets before they are cut, and of the spans themselves if the source has less than 2³² bytes.  In a
longer source, all that stands behind the last offset has the same empty span.

* `Likeness.saturated` — spans and the offsets that they stand for.
* `scan_readsExactly`, `Expr.exists_exact` — the tree with its offsets as they are.
* `Arena.Nests`, `Expr.IsNested.nests` — spans that are nested like the rows of an arena.
* `Arena.Lists` — the tables of an arena that list a tree.
* `Arena.ofSourceWith_structure` — the arena of every source.
-/

namespace PolicyEval

/-! ## Offsets before they are cut -/

theorem Name.text_congr {a a' : Name} (h : a = a') : a.text = a'.text := congrArg Name.text h

theorem Name.same_congr {a a' b b' : Name} (h : a = a') (h' : b = b') : a.same b = a'.same b' := by
  rw [h, h']

theorem Span.merge_saturate {s s' t t' : Span} (h : s = saturate s'.start s'.stop)
    (h' : t = saturate t'.start t'.stop) :
    s.merge t = saturate (s'.merge t').start (s'.merge t').stop := by
  rw [h, h']
  simp only [merge, saturate, mk.injEq]
  omega

/-- Spans whose offsets are cut to 32 bits are like the offsets before. -/
def Likeness.saturated : Likeness where
  name := Eq
  span s exact := s = .saturate exact.start exact.stop
  text_eq := @Name.text_congr
  same_eq := @Name.same_congr
  merge := @Span.merge_saturate

theorem Token.alike_saturated (sign : Sign) (text : String) (start stop : Nat) :
    Token.Alike .saturated ⟨sign, text, .saturate start stop⟩ ⟨sign, text, ⟨start, stop⟩⟩ := by
  refine ⟨?_, rfl, rfl⟩
  cases sign with
  | ident name => exact .ident rfl
  | _ => exact .other rfl

/-- The tokens behind `done` have offsets one behind another from `lo` to `hi`, which are cut to 32
bits. -/
def ReadsExactly (lo hi : Nat) (done : List Token) (ts : TokenList) : Prop :=
  ∃ tokens exact, ts.tokens = done.reverse ++ tokens ∧
    List.Forall₂ (Token.Alike .saturated) tokens exact ∧ InOrder lo (exact.map Token.span) hi ∧
    ts.stop = .saturate hi hi

namespace ReadsExactly

variable {lo hi : Nat} {done : List Token} {ts : TokenList}

theorem gap {lo' : Nat} (h : ReadsExactly lo hi done ts) (hlo : lo' ≤ lo) :
    ReadsExactly lo' hi done ts := by
  obtain ⟨tokens, exact, htokens, halike, hinOrder, hstop⟩ := h
  exact ⟨tokens, exact, htokens, halike, hinOrder.mono hlo (Nat.le_refl _), hstop⟩

theorem token {start : Nat} {sign : Sign} {text : String}
    (h : ReadsExactly lo hi (⟨sign, text, .saturate start lo⟩ :: done) ts) (hlt : start < lo) :
    ReadsExactly start hi done ts := by
  obtain ⟨tokens, exact, htokens, halike, hinOrder, hstop⟩ := h
  refine ⟨_ :: tokens, ⟨sign, text, ⟨start, lo⟩⟩ :: exact, ?_,
    .cons (Token.alike_saturated sign text start lo) halike, ⟨Nat.le_refl _, hlt, hinOrder⟩, hstop⟩
  rw [htokens, List.reverse_cons, List.append_assoc, List.singleton_append]

end ReadsExactly

theorem byteLength_cut_pos (c : Char) (cs : List Char) : 0 < byteLength (cut c cs).text := by
  cases htext : (cut c cs).text with
  | nil => exact absurd htext (cut_text_ne_nil c cs)
  | cons d ds =>
      have hpos := d.utf8Size_pos
      rw [byteLength]
      omega

theorem scan_readsExactly {offset : Nat} {names : Interner} {done : List Token} {cs : List Char}
    {ts : TokenList} (h : scan offset names done cs = .ok ts) :
    ReadsExactly offset (offset + byteLength cs) done ts := by
  fun_induction scan offset names done cs with
  | case1 offset names done =>
      cases h
      exact ⟨[], [], (List.append_nil _).symm, .nil, Nat.le_refl _, rfl⟩
  | case2 offset names done c cs piece stop hshape ih =>
      have hread := ih h
      rw [Nat.add_assoc, byteLength_cut] at hread
      exact hread.gap (Nat.le_add_right _ _)
  | case3 offset names done c cs piece stop span text hshape value hvalue ih
  | case5 offset names done c cs piece stop span text hshape sign hword ih
  | case6 offset names done c cs piece stop span text hshape hword name names' hintern ih
  | case7 offset names done c cs piece stop span text sign hshape ih =>
      have hread := ih h
      rw [Nat.add_assoc, byteLength_cut] at hread
      exact hread.token (Nat.lt_add_of_pos_right (byteLength_cut_pos c cs))
  | case4 | case8 => cases h

namespace Expr

theorem isNumbered_of_ofTokens {ts : TokenList} {e : Expr} (h : ofTokens ts = .ok e) :
    e.IsNumbered 0 := by
  obtain ⟨c, hc, hsigns⟩ := (derives_of_ofTokens h).exists_phrase
  obtain ⟨e', hparse, -, hnumbered⟩ := ofTokens_of_phrase hc hsigns.symm
  rw [h] at hparse
  cases hparse
  exact hnumbered

/-- The tree of a source is like a tree with nested spans inside the source. -/
theorem exists_exact {names names' : Interner} {source : String} {root : Expr}
    (h : ofSourceWith names source = .ok (root, names')) :
    ∃ exact : Expr, root.Alike .saturated exact ∧ exact.IsNumbered 0 ∧
      Laid 0 [exact] source.utf8ByteSize := by
  unfold ofSourceWith at h
  split at h
  · cases h
  · next ts hlex =>
      split at h
      · cases h
      · next e hparse =>
          cases h
          obtain ⟨tokens, exact, htokens, halike, hinOrder, hstop⟩ := scan_readsExactly hlex
          rw [List.reverse_nil, List.nil_append] at htokens
          rw [Nat.zero_add, byteLength_toList] at hinOrder hstop
          subst htokens
          -- The readers look at signs only, so they read the same from the offsets as they are.
          let exactList : TokenList :=
            ⟨exact, ⟨source.utf8ByteSize, source.utf8ByteSize⟩, ts.names⟩
          have hread : ExceptRel (ParseError.Alike .saturated) (Alike .saturated) (ofTokens ts)
              (ofTokens exactList) := ofTokens_alike hstop halike
          rw [hparse] at hread
          generalize hexact : ofTokens exactList = result at hread
          cases hread with
          | ok hroot =>
              exact ⟨_, hroot, isNumbered_of_ofTokens hexact, laid_of_ofTokens hinOrder hexact⟩

/-! ## Trees that are alike node by node -/

variable {L : Likeness} {e e' : Expr}

theorem Alike.parts (h : e.Alike L e') : ListAlike L e.parts e'.parts := by
  cases h with
  | int | bool | null | ident | prim => exact .nil
  | unary _ _ he => exact .cons he .nil
  | binary _ _ hleft hright => exact .cons hleft (.cons hright .nil)
  | call _ hcallee hargs => exact .cons hcallee hargs
  | map _ _ hbody => exact .cons hbody .nil
  | cond _ htest hyes hno => exact .cons htest (.cons hyes (.cons hno .nil))
  | letIn _ hdefs hbody => exact hdefs.inits.append (.cons hbody .nil)

theorem ListAlike.forall₂ {es es' : List Expr} (h : ListAlike L es es') :
    List.Forall₂ (Alike L) es es' := by
  induction es generalizing es' with
  | nil =>
      cases h
      exact .nil
  | cons e es ih =>
      cases h with
      | cons he hes => exact .cons he (ih hes)

theorem Alike.postorder (h : e.Alike L e') :
    List.Forall₂ (Alike L) e.postorder.toList e'.postorder.toList := by
  induction hsize : e.size using Nat.strongRecOn generalizing e e' with
  | ind n ih =>
      subst hsize
      have hbelow : ∀ {es es' : List Expr}, (∀ part ∈ es, part.size < e.size) →
          List.Forall₂ (Alike L) es es' → List.Forall₂ (Alike L)
            (es.flatMap fun part => part.postorder.toList)
            (es'.flatMap fun part => part.postorder.toList) := by
        intro es es' hsmall hes
        induction hes with
        | nil => exact .nil
        | cons he hes ih' =>
            rw [List.flatMap_cons, List.flatMap_cons]
            exact List.rel_append (ih _ (hsmall _ List.mem_cons_self) he rfl)
              (ih' fun part hpart => hsmall part (List.mem_cons_of_mem _ hpart))
      rw [toList_postorder, toList_postorder]
      exact List.rel_append (hbelow (fun _ => size_lt_of_mem_parts) h.parts.forall₂)
        (.cons h .nil)

/-- What trees that are alike have in common, lists of them have in common. -/
theorem map_eq_of_forall₂ {α : Type} {f f' : Expr → α} {es es' : List Expr}
    (h : List.Forall₂ (Alike L) es es') (hf : ∀ d d' : Expr, d.Alike L d' → f d = f' d') :
    es.map f = es'.map f' := by
  have hmapped : List.Forall₂ Eq (es.map f) (es'.map f') := by
    rw [List.forall₂_map_left_iff, List.forall₂_map_right_iff]
    exact h.imp hf
  exact List.forall₂_eq_eq_eq ▸ hmapped

theorem Alike.childTable_eq (h : e.Alike L e') : e.childTable = e'.childTable :=
  map_eq_of_forall₂ h.postorder fun _ _ hd =>
    map_eq_of_forall₂ hd.parts.forall₂ fun _ _ hpart => hpart.place.id

end Expr

/-! ## Spans of an arena -/

/-- The spans are nested like the rows: none is empty, the span of a child is a proper part of that
of its parent, the spans of siblings stand one behind another, and no two rows have the same. -/
structure Arena.Nests (arena : Arena) (span : Nat → Span) : Prop where
  nonempty : ∀ i < arena.rows.length, (span i).start < (span i).stop
  within : ∀ i, ∀ c ∈ arena.children i, (span i).start ≤ (span c).start ∧
    (span c).stop ≤ (span i).stop ∧ span c ≠ span i
  siblings : ∀ i, (arena.children i).Pairwise fun c c' => (span c).stop ≤ (span c').start
  distinct : ∀ i < arena.rows.length, ∀ j < arena.rows.length, span i = span j → i = j

namespace Expr

/-- The span of the node at a position of the listing. -/
def spanAt (e : Expr) (i : Nat) : Span := (e.postorder.toList.map span)[i]?.getD default

variable {e d : Expr} {arena : Arena}

theorem IsNumbered.spanAt_nodeId (h : e.IsNumbered 0) (hd : d ∈ e.postorder) :
    e.spanAt d.nodeId = d.span := by
  rw [spanAt, List.getElem?_map, h.getElem?_postorder.2 ⟨hd, rfl⟩]
  rfl

/-- There is no node at the position, or the span is that of a node. -/
theorem spanAt_cases (e : Expr) (i : Nat) :
    e.spanAt i = default ∨ ∃ d ∈ e.postorder, e.spanAt i = d.span := by
  unfold spanAt
  rw [List.getElem?_map]
  cases hget : e.postorder.toList[i]? with
  | none => exact .inl rfl
  | some d => exact .inr ⟨d, Array.mem_toList_iff.1 (List.mem_of_getElem? hget), rfl⟩

theorem Alike.spanAt_eq {exact : Expr} (h : e.Alike .saturated exact) (i : Nat) :
    e.spanAt i = .saturate (exact.spanAt i).start (exact.spanAt i).stop := by
  have hspans : e.postorder.toList.map Expr.span =
      exact.postorder.toList.map fun d => Span.saturate d.span.start d.span.stop :=
    map_eq_of_forall₂ h.postorder fun _ _ hd => hd.span
  rw [spanAt, spanAt, hspans, List.getElem?_map, List.getElem?_map]
  cases exact.postorder.toList[i]? <;> rfl

theorem IsNumbered.exists_node (h : e.IsNumbered 0) {i : Nat} (hi : i < e.size) :
    ∃ d ∈ e.postorder, d.nodeId = i := by
  have hmem : i ∈ e.postorder.toList.map nodeId := by
    rw [h.map_nodeId]
    exact List.mem_range.2 hi
  obtain ⟨d, hd, hid⟩ := List.mem_map.1 hmem
  exact ⟨d, Array.mem_toList_iff.1 hd, hid⟩

/-- The spans of a tree with nested spans are nested like the rows of its table. -/
theorem IsNested.nests (hnested : e.IsNested) (h : e.IsNumbered 0)
    (harena : arena.nodes.map Node.children = e.childTable) : arena.Nests e.spanAt := by
  have hlength := h.length_rows harena
  -- What is said of rows is said of the nodes that are at their places.
  refine ⟨?_, ?_, ?_, ?_⟩
  · intro i hi
    obtain ⟨d, hd, rfl⟩ := h.exists_node (hlength ▸ hi)
    rw [h.spanAt_nodeId hd]
    exact (hnested d hd).nonempty
  · intro i c hc
    obtain ⟨d, hd, rfl, part, hpart, rfl⟩ := (h.mem_children harena).1 hc
    rw [h.spanAt_nodeId hd, h.spanAt_nodeId (mem_postorder_of_mem_parts hd hpart)]
    obtain ⟨hstart, -, hstop⟩ := (hnested d hd).inOrder.of_mem (List.mem_map_of_mem hpart)
    exact ⟨hstart, hstop, (hnested d hd).proper part hpart⟩
  · intro i
    rcases h.children_cases harena i with hnil | ⟨d, hd, rfl⟩
    · rw [hnil]
      exact .nil
    · rw [h.children_eq harena hd, List.pairwise_map]
      refine (List.pairwise_map.1 (hnested d hd).inOrder.pairwise).imp_of_mem ?_
      intro part part' hpart hpart' hbehind
      rw [h.spanAt_nodeId (mem_postorder_of_mem_parts hd hpart),
        h.spanAt_nodeId (mem_postorder_of_mem_parts hd hpart')]
      exact hbehind
  · intro i hi j hj hspan
    obtain ⟨d, hd, rfl⟩ := h.exists_node (hlength ▸ hi)
    obtain ⟨d', hd', rfl⟩ := h.exists_node (hlength ▸ hj)
    rw [h.spanAt_nodeId hd, h.spanAt_nodeId hd'] at hspan
    rw [List.inj_on_of_nodup_map hnested.nodup_spans (Array.mem_toList_iff.2 hd)
      (Array.mem_toList_iff.2 hd') hspan]

end Expr

/-! ## The arena of a source -/

/-- The arena lists the nodes of the tree in post-order, and the lists of its rows partition the
side tables. -/
structure Arena.Lists (arena : Arena) (root : Expr) : Prop where
  buildAll_eq : Node.buildAll? arena.nodes = some root.postorder
  isTreeAt : arena.IsTreeAt root.nodeId
  args : IsPartition (arena.rows.filterMap Row.argRange?) arena.args.length
  params : IsPartition (arena.rows.filterMap Row.paramRange?) arena.params.length
  defs : IsPartition (arena.rows.filterMap Row.defRange?) arena.defs.length

namespace Arena

theorem nodes_ofExpr (e : Expr) : (ofExpr e).nodes = e.nodes :=
  isTidy_empty.nodes_fileAll e.nodes

theorem lists_ofExpr {e : Expr} (h : e.IsNumbered 0) : (ofExpr e).Lists e := by
  have htidy : (ofExpr e).IsTidy := isTidy_empty.fileAll e.nodes
  have hchildren : (ofExpr e).nodes.map Node.children = e.childTable := by
    rw [nodes_ofExpr, Expr.map_children_nodes]
  refine ⟨?_, h.isTreeAt hchildren, htidy.args.isPartition, htidy.params.isPartition,
    htidy.defs.isPartition⟩
  rw [nodes_ofExpr]
  exact h.buildAll?_nodes

theorem spanAt_ofExpr (e : Expr) : (ofExpr e).spanAt = e.spanAt := by
  funext i
  have hspans : e.nodes.map Node.span = e.postorder.toList.map Expr.span := by
    rw [Expr.nodes, List.map_map]
    exact List.map_congr_left fun d _ => d.span_node
  rw [spanAt_eq, nodes_ofExpr, ← List.getElem?_map, hspans, Expr.spanAt]

/-- Every source that can be read is read into an arena that lists its tree.  The spans of the arena
are nested offsets inside the source, cut to 32 bits, and they are nested themselves unless the
source has 2³² bytes or more. -/
theorem ofSourceWith_structure {names names' : Interner} {source : String} {root : Expr}
    (h : Expr.ofSourceWith names source = .ok (root, names')) :
    ∃ arena, ofSourceWith names source = .ok ((root.nodeId, arena), names') ∧
      arena.Lists root ∧
      (∃ exact : Nat → Span, arena.Nests exact ∧
        ∀ i < arena.rows.length, (exact i).stop ≤ source.utf8ByteSize ∧
          arena.spanAt i = .saturate (exact i).start (exact i).stop) ∧
      (source.utf8ByteSize ≤ Span.maxOffset → arena.Nests arena.spanAt) := by
  obtain ⟨exact, halike, hnumbered, hlaid⟩ := Expr.exists_exact h
  have hnested : exact.IsNested := hlaid.isNested exact (List.mem_singleton.2 rfl)
  have hnests : (ofExpr root).Nests exact.spanAt := by
    refine hnested.nests hnumbered ?_
    rw [nodes_ofExpr, Expr.map_children_nodes, halike.childTable_eq]
  have hspan : ∀ i, (ofExpr root).spanAt i =
      .saturate (exact.spanAt i).start (exact.spanAt i).stop := by
    intro i
    rw [spanAt_ofExpr]
    exact halike.spanAt_eq i
  have hstop : ∀ i, (exact.spanAt i).start ≤ source.utf8ByteSize ∧
      (exact.spanAt i).stop ≤ source.utf8ByteSize := by
    intro i
    rcases exact.spanAt_cases i with hnone | ⟨d, hd, hsome⟩
    · rw [hnone]
      exact ⟨Nat.zero_le _, Nat.zero_le _⟩
    · have hwithin := hnested.within hd
      have hnonempty := (hnested d hd).nonempty
      have hend : exact.span.stop ≤ source.utf8ByteSize := hlaid.inOrder.2.2
      rw [hsome]
      exact ⟨by omega, by omega⟩
  refine ⟨ofExpr root, ?_, lists_ofExpr (Expr.fits_of_ofSourceWith h).2,
    ⟨exact.spanAt, hnests, fun i _ => ⟨(hstop i).2, hspan i⟩⟩, fun hsize => ?_⟩
  · rw [ofSourceWith_eq, h]
    rfl
  · have hsame : (ofExpr root).spanAt = exact.spanAt := by
      funext i
      rw [hspan, Span.saturate_of_le (Nat.le_trans (hstop i).1 hsize)
        (Nat.le_trans (hstop i).2 hsize)]
    rw [hsame]
    exact hnests

/-- The tree of `let f := map x to x; in f(1)`. -/
def bindingTree : Expr :=
  .letIn ⟨5, ⟨0, 28⟩⟩
    [(⟨⟨1, "f"⟩, ⟨4, 5⟩⟩,
      .map ⟨1, ⟨9, 19⟩⟩ [⟨⟨2, "x"⟩, ⟨13, 14⟩⟩] (.ident ⟨0, ⟨18, 19⟩⟩ ⟨2, "x"⟩))]
    (.call ⟨4, ⟨24, 28⟩⟩ (.ident ⟨2, ⟨24, 25⟩⟩ ⟨1, "f"⟩) [.int ⟨3, ⟨26, 27⟩⟩ 1])

/-- The arena of `let f := map x to x; in f(1)`. -/
def bindingArena : Arena where
  rows := [.ident ⟨18, 19⟩ ⟨2, "x"⟩, .map ⟨9, 19⟩ ⟨0, 1⟩ 0, .ident ⟨24, 25⟩ ⟨1, "f"⟩,
    .int ⟨26, 27⟩ 1, .call ⟨24, 28⟩ 2 ⟨0, 1⟩, .letIn ⟨0, 28⟩ ⟨0, 1⟩ 4]
  args := [3]
  params := [⟨⟨2, "x"⟩, ⟨13, 14⟩⟩]
  defs := [(⟨⟨1, "f"⟩, ⟨4, 5⟩⟩, 1)]

/-- A source whose rows have lists in all three side tables. -/
theorem ofSourceWith_structure_binding :
    Expr.ofSourceWith .empty "let f := map x to x; in f(1)" =
      .ok (bindingTree, ⟨#["", "f", "x"]⟩) ∧
    ofSourceWith .empty "let f := map x to x; in f(1)" =
      .ok ((5, bindingArena), ⟨#["", "f", "x"]⟩) ∧
    bindingArena.Lists bindingTree ∧ bindingArena.Nests bindingArena.spanAt := by
  have hread : Expr.ofSourceWith .empty "let f := map x to x; in f(1)" =
      .ok (bindingTree, ⟨#["", "f", "x"]⟩) := by with_unfolding_all rfl
  have hfile : ofSourceWith .empty "let f := map x to x; in f(1)" =
      .ok ((5, bindingArena), ⟨#["", "f", "x"]⟩) := by
    rw [ofSourceWith_eq, hread]
    rfl
  obtain ⟨arena, harena, hlists, -, hnests⟩ := ofSourceWith_structure hread
  obtain rfl : bindingArena = arena := by
    rw [hfile] at harena
    injection harena with hpair
    injection hpair with hfiled
    injection hfiled
  exact ⟨hread, hfile, hlists, hnests (by decide)⟩

end Arena

end PolicyEval
