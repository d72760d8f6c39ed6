import PolicyEval.Proofs.Arena.Postorder
import PolicyEval.Proofs.Likeness.Reading

/-!
# Spans of a tree are nested like its nodes

The tokens of a source have spans one behind another.  The span of a node reaches from one of its
tokens to another one: from a keyword or an operator in front of its parts to the last part, from
one operand to the other, or from a callee to a closing parenthesis.  So it encloses the spans of
its parts, and none of them fills it, although parentheses around the node do not belong to it.

The readers keep this up: what they return lies behind all that was read before and in front of all
that is left.

* `InOrder` — non-empty spans one behind another between two offsets.
* `Expr.Encloses`, `Expr.IsNested` — a node encloses its parts, and all nodes of a tree do.
* `Laid` — trees with nested spans, one behind another.
* `Laid.lead`, `Laid.between`, `Laid.trail` — a node around its parts.
* `parseExpr_laid` and its siblings — the readers.
* `Expr.IsNested.nodup_spans` — no two nodes of a tree have the same span.
-/

namespace PolicyEval

/-! ## Spans one behind another -/

/-- Non-empty spans one behind another, from the offset `lo` to the offset `hi`. -/
def InOrder (lo : Nat) : List Span → Nat → Prop
  | [], hi => lo ≤ hi
  | s :: ss, hi => lo ≤ s.start ∧ s.start < s.stop ∧ InOrder s.stop ss hi

namespace InOrder

variable {lo lo' mid hi hi' : Nat} {s : Span} {ss ss' : List Span}

theorem le (h : InOrder lo ss hi) : lo ≤ hi := by
  induction ss generalizing lo with
  | nil => exact h
  | cons s ss ih =>
      have hstop := ih h.2.2
      have hstart := h.1
      have hsome := h.2.1
      omega

theorem mono (h : InOrder lo ss hi) (hlo : lo' ≤ lo) (hhi : hi ≤ hi') : InOrder lo' ss hi' := by
  induction ss generalizing lo lo' with
  | nil => exact Nat.le_trans hlo (Nat.le_trans h hhi)
  | cons s ss ih => exact ⟨Nat.le_trans hlo h.1, h.2.1, ih h.2.2 (Nat.le_refl _)⟩

theorem tail (h : InOrder lo (s :: ss) hi) : InOrder lo ss hi := by
  have hstart := h.1
  have hsome := h.2.1
  exact h.2.2.mono (by omega) (Nat.le_refl _)

theorem append (h : InOrder lo ss mid) (h' : InOrder mid ss' hi) : InOrder lo (ss ++ ss') hi := by
  induction ss generalizing lo with
  | nil => exact h'.mono h (Nat.le_refl _)
  | cons s ss ih => exact ⟨h.1, h.2.1, ih h.2.2⟩

theorem of_mem (h : InOrder lo ss hi) (hs : s ∈ ss) :
    lo ≤ s.start ∧ s.start < s.stop ∧ s.stop ≤ hi := by
  induction ss generalizing lo with
  | nil => cases hs
  | cons s' ss ih =>
      rcases List.mem_cons.1 hs with rfl | hs
      · exact ⟨h.1, h.2.1, h.2.2.le⟩
      · exact ih h.tail hs

/-- The last span may as well be the end. -/
theorem upToLast (h : InOrder lo (ss ++ [s]) hi) : InOrder lo (ss ++ [s]) s.stop := by
  induction ss generalizing lo with
  | nil => exact ⟨h.1, h.2.1, Nat.le_refl _⟩
  | cons s' ss ih => exact ⟨h.1, h.2.1, ih h.2.2⟩

theorem pairwise (h : InOrder lo ss hi) : ss.Pairwise fun s s' => s.stop ≤ s'.start := by
  induction ss generalizing lo with
  | nil => exact .nil
  | cons s ss ih => exact .cons (fun s' hs' => (h.2.2.of_mem hs').1) (ih h.2.2)

end InOrder

/-! ## Trees -/

namespace Expr

/-- The node has a non-empty span, and the spans of its parts stand in it one behind another, none
of them as wide. -/
structure Encloses (e : Expr) : Prop where
  nonempty : e.span.start < e.span.stop
  inOrder : InOrder e.span.start (e.parts.map span) e.span.stop
  proper : ∀ part ∈ e.parts, part.span ≠ e.span

/-- All nodes of the tree enclose their parts. -/
def IsNested (e : Expr) : Prop := ∀ d ∈ e.postorder, d.Encloses

theorem Encloses.isNested {e : Expr} (h : e.Encloses) (hparts : ∀ part ∈ e.parts, part.IsNested) :
    e.IsNested := by
  intro d hd
  rcases mem_postorder.1 hd with rfl | ⟨part, hpart, hd⟩
  · exact h
  · exact hparts part hpart d hd

end Expr

/-- Trees with nested spans, one behind another from the offset `lo` to the offset `hi`. -/
structure Laid (lo : Nat) (es : List Expr) (hi : Nat) : Prop where
  inOrder : InOrder lo (es.map Expr.span) hi
  isNested : ∀ e ∈ es, e.IsNested

namespace Laid

variable {lo lo' mid hi hi' : Nat} {e e' : Expr} {es es' : List Expr}

theorem nil (h : lo ≤ hi) : Laid lo [] hi := ⟨h, List.forall_mem_nil _⟩

theorem mono (h : Laid lo es hi) (hlo : lo' ≤ lo) (hhi : hi ≤ hi') : Laid lo' es hi' :=
  ⟨h.inOrder.mono hlo hhi, h.isNested⟩

theorem append (h : Laid lo es mid) (h' : Laid mid es' hi) : Laid lo (es ++ es') hi := by
  refine ⟨?_, List.forall_mem_append.2 ⟨h.isNested, h'.isNested⟩⟩
  rw [List.map_append]
  exact h.inOrder.append h'.inOrder

/-- A node that encloses trees which are its parts. -/
theorem enclose (h : Laid lo es mid) (hparts : e.parts = es) (hencloses : e.Encloses)
    (hlo : lo' ≤ e.span.start) (hhi : e.span.stop ≤ hi) : Laid lo' [e] hi := by
  refine ⟨⟨hlo, hencloses.nonempty, hhi⟩, List.forall_mem_singleton.2 (hencloses.isNested ?_)⟩
  rw [hparts]
  exact h.isNested

/-- A node without parts. -/
theorem leaf (hparts : e.parts = []) (hlo : lo ≤ e.span.start)
    (hnonempty : e.span.start < e.span.stop) : Laid lo [e] e.span.stop := by
  refine (nil (Nat.le_of_lt hnonempty)).enclose hparts ⟨hnonempty, ?_, ?_⟩ hlo (Nat.le_refl _)
  · rw [hparts]
    exact Nat.le_of_lt hnonempty
  · rw [hparts]
    exact List.forall_mem_nil _

/-- A node whose span reaches from a token in front of its parts to the last of them. -/
theorem lead {k : Span} {last : Expr} (h : Laid k.stop (es ++ [last]) hi)
    (hlo : lo ≤ k.start) (hk : k.start < k.stop) (hparts : e.parts = es ++ [last])
    (hspan : e.span = k.merge last.span) : Laid lo [e] hi := by
  have hmem : last ∈ es ++ [last] := List.mem_append_right es (List.mem_singleton.2 rfl)
  have hlast := h.inOrder.of_mem (List.mem_map_of_mem hmem)
  have hwide : e.span = ⟨k.start, last.span.stop⟩ := by
    rw [hspan, Span.merge, Nat.min_eq_left (by omega), Nat.max_eq_right (by omega)]
  have hinOrder : InOrder k.stop ((es ++ [last]).map Expr.span) last.span.stop := by
    have hupTo := h.inOrder
    rw [List.map_append, List.map_singleton] at hupTo ⊢
    exact hupTo.upToLast
  refine h.enclose hparts ⟨?_, ?_, ?_⟩ (hwide ▸ hlo) (hwide ▸ hlast.2.2)
  · rw [hwide]
    dsimp only
    omega
  · rw [hparts, hwide]
    exact hinOrder.mono (Nat.le_of_lt hk) (Nat.le_refl _)
  · -- No part starts as early as the token in front.
    intro part hpart heq
    rw [hparts] at hpart
    have hstart := (hinOrder.of_mem (List.mem_map_of_mem hpart)).1
    rw [heq, hwide] at hstart
    exact Nat.not_le_of_lt hk hstart

/-- A node whose span reaches from one part to the other. -/
theorem between {left right : Expr} (h : Laid lo [left, right] hi)
    (hparts : e.parts = [left, right]) (hspan : e.span = left.span.merge right.span) :
    Laid lo [e] hi := by
  obtain ⟨hlo, hleft, hmid, hright, hhi⟩ := h.inOrder
  have hwide : e.span = ⟨left.span.start, right.span.stop⟩ := by
    rw [hspan, Span.merge, Nat.min_eq_left (by omega), Nat.max_eq_right (by omega)]
  refine h.enclose hparts ⟨?_, ?_, ?_⟩ (hwide ▸ hlo) (hwide ▸ hhi)
  · rw [hwide]
    dsimp only
    omega
  · rw [hparts, hwide]
    exact ⟨Nat.le_refl _, hleft, hmid, hright, Nat.le_refl _⟩
  · -- The left part ends too early, and the right part starts too late.
    intro part hpart heq
    rw [hparts] at hpart
    have hstart := congrArg Span.start (heq.trans hwide)
    have hstop := congrArg Span.stop (heq.trans hwide)
    dsimp only at hstart hstop
    rcases List.mem_pair.1 hpart with rfl | rfl <;> omega

/-- A node whose span reaches from its first part to a token behind all parts. -/
theorem trail {close : Span} {first : Expr} (h : Laid lo (first :: es) mid)
    (hclose : mid ≤ close.start) (hnonempty : close.start < close.stop)
    (hparts : e.parts = first :: es) (hspan : e.span = first.span.merge close) :
    Laid lo [e] close.stop := by
  obtain ⟨hlo, hfirst, hmore⟩ := h.inOrder
  have hle := hmore.le
  have hends : mid ≤ close.stop := by omega
  have hwide : e.span = ⟨first.span.start, close.stop⟩ := by
    rw [hspan, Span.merge, Nat.min_eq_left (by omega), Nat.max_eq_right (by omega)]
  refine h.enclose hparts ⟨?_, ?_, ?_⟩ (hwide ▸ hlo) (hwide ▸ Nat.le_refl _)
  · rw [hwide]
    dsimp only
    omega
  · rw [hparts, hwide]
    exact ⟨Nat.le_refl _, hfirst, hmore.mono (Nat.le_refl _) hends⟩
  · -- No part ends as late as the token behind.
    intro part hpart heq
    rw [hparts] at hpart
    have hstop := (h.inOrder.of_mem (List.mem_map_of_mem hpart)).2.2
    rw [heq, hwide] at hstop
    dsimp only at hstop
    omega

end Laid

/-! ## All nodes of a tree -/

namespace Expr.IsNested

variable {e d : Expr}

theorem of_mem_parts (e : Expr) (h : e.IsNested) : ∀ part ∈ e.parts, part.IsNested :=
  fun part hpart d hd => h d (mem_postorder.2 (.inr ⟨part, hpart, hd⟩))

theorem encloses (h : e.IsNested) : e.Encloses := h e (mem_postorder.2 (.inl rfl))

/-- All nodes of a tree lie inside the span of its root. -/
theorem within (h : e.IsNested) (hd : d ∈ e.postorder) :
    e.span.start ≤ d.span.start ∧ d.span.stop ≤ e.span.stop := by
  have hall : ∀ d ∈ e.postorder,
      d.IsNested ∧ e.span.start ≤ d.span.start ∧ d.span.stop ≤ e.span.stop := by
    refine forall_mem_postorder ?_ ⟨h, Nat.le_refl _, Nat.le_refl _⟩
    rintro d ⟨hnested, hstart, hstop⟩ part hpart
    obtain ⟨hlo, -, hhi⟩ := hnested.encloses.inOrder.of_mem (List.mem_map_of_mem hpart)
    exact ⟨of_mem_parts d hnested part hpart, by omega, by omega⟩
  exact (hall d hd).2

/-- No two nodes of a tree have the same span. -/
theorem nodup_spans (h : e.IsNested) : (e.postorder.toList.map span).Nodup := by
  induction hsize : e.size using Nat.strongRecOn generalizing e with
  | ind n ih =>
      subst hsize
      have hparts := of_mem_parts e h
      have hroot := h.encloses
      rw [toList_postorder, List.map_append, List.map_flatMap, List.map_singleton]
      refine List.nodup_append.2 ⟨List.nodup_flatMap.2 ⟨?_, ?_⟩, List.nodup_singleton _, ?_⟩
      · exact fun part hpart => ih _ (size_lt_of_mem_parts hpart) (hparts part hpart) rfl
      · -- What lies in one part ends before what lies in a later part starts.
        have hapart := List.pairwise_map.1 hroot.inOrder.pairwise
        refine hapart.imp_of_mem fun hp hp' hlt s hs hs' => ?_
        obtain ⟨d, hd, rfl⟩ := List.mem_map.1 hs
        obtain ⟨d', hd', heq⟩ := List.mem_map.1 hs'
        have hin := (hparts _ hp).within (Array.mem_toList_iff.1 hd)
        have hin' := (hparts _ hp').within (Array.mem_toList_iff.1 hd')
        have hnonempty := (hparts _ hp d (Array.mem_toList_iff.1 hd)).nonempty
        rw [heq] at hin'
        omega
      · -- What is as wide as the root is wider than any part.
        intro s hs s' hs' heq
        obtain ⟨part, hpart, hs⟩ := List.mem_flatMap.1 hs
        obtain ⟨d, hd, rfl⟩ := List.mem_map.1 hs
        rw [List.mem_singleton.1 hs'] at heq
        have hin := (hparts part hpart).within (Array.mem_toList_iff.1 hd)
        have hout := hroot.inOrder.of_mem (List.mem_map_of_mem hpart)
        rw [heq] at hin
        refine hroot.proper part hpart ?_
        cases hspan : part.span
        cases hspan' : e.span
        rw [hspan, hspan'] at hin hout
        dsimp only at hin hout
        simp only [Span.mk.injEq]
        omega

end Expr.IsNested

/-! ## The readers -/

theorem StartsWith.exists_eq {ts : List Token} {sign : Sign} (h : StartsWith sign ts) :
    ∃ text span rest, ts = ⟨sign, text, span⟩ :: rest := by
  obtain ⟨t, hhead, rfl⟩ := h
  cases ts with
  | nil => cases hhead
  | cons u us =>
      cases hhead
      exact ⟨t.text, t.span, us, rfl⟩

/-- If there is a result, it has the property. -/
def Ensures {ε α : Type} (P : α → Prop) (x : Except ε α) : Prop := ∀ a, x = .ok a → P a

namespace Ensures

variable {ε α β : Type} {P : α → Prop} {Q : β → Prop}

theorem ok {a : α} (h : P a) : Ensures P (.ok a : Except ε α) := by
  rintro _ ⟨⟩
  exact h

theorem error {e : ε} : Ensures P (.error e) := by
  rintro _ ⟨⟩

theorem bind {x : Except ε α} {f : α → Except ε β} (h : Ensures P x)
    (hnext : ∀ a, P a → Ensures Q (f a)) : Ensures Q (x >>= f) := by
  cases x with
  | error e => exact error
  | ok a => exact hnext a (h a rfl)

end Ensures

/-- What was read lies behind the offset `lo` and in front of the tokens left over. -/
def Parsed.IsLaid {α : Type} {n : Nat} (lo hi : Nat) (place : Nat → α → Nat → Prop)
    (p : Parsed α n) : Prop :=
  ∃ mid, place lo p.value mid ∧ InOrder mid (p.rest.map Token.span) hi

/-- A tree with nested spans. -/
def ExprLaid (lo : Nat) (e : Expr) (hi : Nat) : Prop := Laid lo [e] hi

/-- Arguments one behind another, and a closing parenthesis behind them. -/
def ArgsLaid (lo : Nat) (args : List Expr × Span) (hi : Nat) : Prop :=
  ∃ mid, Laid lo args.1 mid ∧ mid ≤ args.2.start ∧ args.2.start < args.2.stop ∧ args.2.stop = hi

/-- Right-hand sides one behind another. -/
def DefsLaid (lo : Nat) (defs : List (Binder × Expr)) (hi : Nat) : Prop :=
  Laid lo (defs.map Prod.snd) hi

section

variable {α β : Type} {n lo hi : Nat} {place : Nat → α → Nat → Prop} {P : β → Prop}

theorem Ensures.bindParsed {x : Except ParseError (Parsed α n)}
    {f : Parsed α n → Except ParseError β} (h : Ensures (Parsed.IsLaid lo hi place) x)
    (hnext : ∀ a next rest hfewer mid, place lo a mid → InOrder mid (rest.map Token.span) hi →
      Ensures P (f ⟨a, next, rest, hfewer⟩)) : Ensures P (x >>= f) := by
  refine h.bind ?_
  rintro ⟨a, next, rest, hfewer⟩ ⟨mid, hplace, hrest⟩
  exact hnext a next rest hfewer mid hplace hrest

/-- Takes a sign off the tokens. -/
theorem Ensures.bindSign {stop : Span} {sign : Sign} {expected : Expected} {ts : List Token}
    {f : { rest : List Token // rest.length < ts.length } → Except ParseError β}
    (hts : InOrder lo (ts.map Token.span) hi)
    (hnext : ∀ rest hfewer, InOrder lo (rest.map Token.span) hi → Ensures P (f ⟨rest, hfewer⟩)) :
    Ensures P (expectSign stop sign expected ts >>= f) := by
  cases ts with
  | nil => exact .error
  | cons t ts =>
      rw [expectSign]
      split
      · exact hnext ts _ hts.tail
      · exact .error

theorem parseParamList_inOrder (stop : Span) : (ts : List Token) →
    InOrder lo (ts.map Token.span) hi →
    Ensures (fun p => InOrder lo (p.2.1.map Token.span) hi) (parseParamList stop ts)
  | [], _ => .error
  | ⟨sign, text, span⟩ :: ts, hts => by
      cases sign with
      | ident name =>
          cases ts with
          | nil => exact .ok hts.tail
          | cons u us =>
              obtain ⟨usign, utext, uspan⟩ := u
              cases usign with
              | comma =>
                  refine (parseParamList_inOrder stop us hts.tail.tail).bind ?_
                  rintro ⟨params, rest⟩ hrest
                  exact .ok hrest
              | _ => exact .ok hts.tail
      | _ => exact .error

theorem parseParams_inOrder (stop : Span) {ts : List Token}
    (hts : InOrder lo (ts.map Token.span) hi) :
    Ensures (fun p => InOrder lo (p.2.1.map Token.span) hi) (parseParams stop ts) := by
  unfold parseParams
  split
  · exact .ok hts.tail
  · refine (parseParamList_inOrder stop ts hts).bind ?_
    rintro ⟨params, afterParams, h₁⟩ hafter
    exact .bindSign hafter fun rest _ hrest => .ok hrest

end

section

variable (stop : Span) {hi : Nat}

-- The induction follows the readers.  What was read lies behind `lo`, and the tokens left over lie
-- behind it; an operand or a callee that was read before is laid out from the same `lo`.
mutual
theorem parseExpr_laid (next : Nat) {lo : Nat} {ts : List Token}
    (h : InOrder lo (ts.map Token.span) hi) :
    Ensures (Parsed.IsLaid lo hi ExprLaid) (parseExpr stop next ts) := by
  -- A form starts with its first word and stops with its last part, which is read last.
  by_cases hif : StartsWith (.keyword .ifWord) ts
  · obtain ⟨text, span, ts, rfl⟩ := hif.exists_eq
    obtain ⟨hlo, hspan, hts⟩ := h
    rw [parseExpr]
    refine (parseExpr_laid next hts).bindParsed fun test n₁ ts₁ h₁ _ htest hts₁ => ?_
    refine .bindSign hts₁ fun ts₂ h₂ hts₂ => ?_
    refine (parseExpr_laid n₁ hts₂).bindParsed fun yes n₂ ts₃ h₃ _ hyes hts₃ => ?_
    refine .bindSign hts₃ fun ts₄ h₄ hts₄ => ?_
    refine (parseExpr_laid n₂ hts₄).bindParsed fun no n₃ rest h₅ _ hno hrest => ?_
    exact .ok ⟨_, ((htest.append hyes).append hno).lead hlo hspan rfl rfl, hrest⟩
  by_cases hlet : StartsWith (.keyword .letWord) ts
  · obtain ⟨text, span, ts, rfl⟩ := hlet.exists_eq
    obtain ⟨hlo, hspan, hts⟩ := h
    rw [parseExpr]
    refine (parseDefs_laid next hts).bindParsed fun defs n₁ ts₁ h₁ _ hdefs hts₁ => ?_
    dsimp only
    split
    · exact .error
    · refine .bindSign hts₁ fun ts₂ h₂ hts₂ => ?_
      refine (parseExpr_laid n₁ hts₂).bindParsed fun body n₂ rest h₃ _ hbody hrest => ?_
      exact .ok ⟨_, (hdefs.append hbody).lead hlo hspan rfl rfl, hrest⟩
  by_cases hmap : StartsWith (.keyword .mapWord) ts
  · obtain ⟨text, span, ts, rfl⟩ := hmap.exists_eq
    obtain ⟨hlo, hspan, hts⟩ := h
    rw [parseExpr]
    refine (parseParams_inOrder stop hts).bind ?_
    rintro ⟨params, ts₁, h₁⟩ hts₁
    refine (parseExpr_laid next hts₁).bindParsed fun body n₁ rest h₂ _ hbody hrest => ?_
    exact .ok ⟨_, ((Laid.nil (Nat.le_refl _)).append hbody).lead hlo hspan rfl rfl, hrest⟩
  rw [parseExpr_of_other hif hlet hmap]
  exact parseBinary_laid 0 next h
termination_by 5 * ts.length + 2
decreasing_by all_goals first | omega | (subst_vars; simp only [List.length_cons]; omega)

theorem parseBinary_laid (min next : Nat) {lo : Nat} {ts : List Token}
    (h : InOrder lo (ts.map Token.span) hi) :
    Ensures (Parsed.IsLaid lo hi ExprLaid) (parseBinary stop min next ts) := by
  rw [parseBinary]
  refine (parseTerm_laid next h).bindParsed fun left n₁ ts₁ h₁ _ hleft hts₁ => ?_
  refine (parseOperators_laid min n₁ hleft hts₁).bindParsed
    fun whole n₂ rest h₂ _ hwhole hrest => ?_
  exact .ok ⟨_, hwhole, hrest⟩
termination_by 5 * ts.length + 1

theorem parseOperators_laid (min next : Nat) {lo mid : Nat} {left : Expr}
    (hleft : Laid lo [left] mid) {ts : List Token} (h : InOrder mid (ts.map Token.span) hi) :
    Ensures (Parsed.IsLaid lo hi ExprLaid) (parseOperators stop min left next ts) := by
  by_cases hhead : ∃ op, StartsWith (.operator op) ts
  · obtain ⟨op, hop⟩ := hhead
    obtain ⟨text, span, ts, rfl⟩ := hop.exists_eq
    rw [parseOperators]
    split
    · exact .ok ⟨_, hleft, h⟩
    · have hmore : ∀ {right : Expr} {us : List Token} (n mid' : Nat), us.length < ts.length →
          Laid mid [right] mid' → InOrder mid' (us.map Token.span) hi →
          Ensures (Parsed.IsLaid lo hi ExprLaid) (parseOperators stop min
            (.binary ⟨n, left.span.merge right.span⟩ op left right) (n + 1) us) := by
        intro right us n mid' hfewer hright hus
        exact parseOperators_laid min (n + 1) ((hleft.append hright).between rfl rfl) hus
      split
      · refine (parseExpr_laid next h.tail).bindParsed fun right n₁ ts₁ h₁ _ hright hts₁ => ?_
        exact (hmore n₁ _ h₁ hright hts₁).bindParsed
          fun whole n₂ rest h₂ _ hwhole hrest => .ok ⟨_, hwhole, hrest⟩
      · refine (parseBinary_laid (op.precedence + 1) next h.tail).bindParsed
          fun right n₁ ts₁ h₁ _ hright hts₁ => ?_
        exact (hmore n₁ _ h₁ hright hts₁).bindParsed
          fun whole n₂ rest h₂ _ hwhole hrest => .ok ⟨_, hwhole, hrest⟩
  · rw [parseOperators_of_other fun op hop => hhead ⟨op, hop⟩]
    exact .ok ⟨_, hleft, h⟩
termination_by 5 * ts.length
decreasing_by all_goals (subst_vars; simp only [List.length_cons]; omega)

theorem parseTerm_laid (next : Nat) {lo : Nat} {ts : List Token}
    (h : InOrder lo (ts.map Token.span) hi) :
    Ensures (Parsed.IsLaid lo hi ExprLaid) (parseTerm stop next ts) := by
  cases ts with
  | nil =>
      rw [parseTerm]
      exact .error
  | cons t ts =>
      obtain ⟨hlo, hspan, hts⟩ := h
      rw [parseTerm]
      cases hunary : t.sign.unaryOp? with
      | some op =>
          refine (parseTerm_laid next hts).bindParsed fun operand n₁ rest h₁ _ hoperand hrest => ?_
          exact .ok ⟨_, ((Laid.nil (Nat.le_refl _)).append hoperand).lead hlo hspan rfl rfl, hrest⟩
      | none =>
          obtain ⟨sign, text, span⟩ := t
          cases sign with
          | int n => exact .ok ⟨_, Laid.leaf rfl hlo hspan, hts⟩
          | bool b => exact .ok ⟨_, Laid.leaf rfl hlo hspan, hts⟩
          | null => exact .ok ⟨_, Laid.leaf rfl hlo hspan, hts⟩
          | prim p =>
              exact parseCalls_laid (next + 1)
                (Laid.leaf (e := .prim ⟨next, span⟩ p) rfl hlo hspan) hts
          | ident name =>
              exact parseCalls_laid (next + 1)
                (Laid.leaf (e := .ident ⟨next, span⟩ name) rfl hlo hspan) hts
          | openParen =>
              refine (parseExpr_laid next hts).bindParsed fun inner n₁ ts₁ h₁ _ hinner hts₁ => ?_
              refine .bindSign hts₁ fun ts₂ h₂ hts₂ => ?_
              -- The parentheses do not belong to the span; they only keep others at a distance.
              have hbehind : Laid lo [inner] _ := hinner.mono (by omega) (Nat.le_refl _)
              refine (parseCalls_laid n₁ hbehind hts₂).bindParsed
                fun whole n₂ rest h₃ _ hwhole hrest => ?_
              exact .ok ⟨_, hwhole, hrest⟩
          | _ => exact .error
termination_by 5 * ts.length
decreasing_by all_goals (subst_vars; simp only [List.length_cons]; omega)

theorem parseCalls_laid (next : Nat) {lo mid : Nat} {callee : Expr}
    (hcallee : Laid lo [callee] mid) {ts : List Token} (h : InOrder mid (ts.map Token.span) hi) :
    Ensures (Parsed.IsLaid lo hi ExprLaid) (parseCalls stop callee next ts) := by
  by_cases hhead : StartsWith .openParen ts
  · obtain ⟨text, span, ts, rfl⟩ := hhead.exists_eq
    rw [parseCalls]
    refine (parseArgs_laid next h.tail).bindParsed fun args n₁ ts₁ h₁ _ hargs hts₁ => ?_
    obtain ⟨mid', hargs, hclose, hnonempty, rfl⟩ := hargs
    have hcall : Laid lo [.call ⟨n₁, callee.span.merge args.2⟩ callee args.1] args.2.stop :=
      (hcallee.append hargs).trail hclose hnonempty rfl rfl
    refine (parseCalls_laid (n₁ + 1) hcall hts₁).bindParsed
      fun whole n₂ rest h₂ _ hwhole hrest => ?_
    exact .ok ⟨_, hwhole, hrest⟩
  · rw [parseCalls_of_other hhead]
    exact .ok ⟨_, hcallee, h⟩
termination_by 5 * ts.length
decreasing_by all_goals (subst_vars; simp only [List.length_cons]; omega)

theorem parseArgs_laid (next : Nat) {lo : Nat} {ts : List Token}
    (h : InOrder lo (ts.map Token.span) hi) :
    Ensures (Parsed.IsLaid lo hi ArgsLaid) (parseArgs stop next ts) := by
  by_cases hhead : StartsWith .closeParen ts
  · obtain ⟨text, span, ts, rfl⟩ := hhead.exists_eq
    obtain ⟨hlo, hspan, hts⟩ := h
    rw [parseArgs]
    exact .ok ⟨_, ⟨lo, .nil (Nat.le_refl _), hlo, hspan, rfl⟩, hts⟩
  · rw [parseArgs_of_other hhead]
    exact parseArgList_laid next h
termination_by 5 * ts.length + 4

theorem parseArgList_laid (next : Nat) {lo : Nat} {ts : List Token}
    (h : InOrder lo (ts.map Token.span) hi) :
    Ensures (Parsed.IsLaid lo hi ArgsLaid) (parseArgList stop next ts) := by
  rw [parseArgList]
  refine (parseExpr_laid next h).bindParsed fun arg n₁ ts₁ h₁ _ harg hts₁ => ?_
  cases ts₁ with
  | nil => exact .error
  | cons t ts₂ =>
      obtain ⟨sign, text, span⟩ := t
      cases sign with
      | comma =>
          have hfewer : ts₂.length < ts.length := Nat.lt_of_succ_lt h₁
          refine (parseArgList_laid n₁ hts₁.tail).bindParsed fun args n₂ rest h₂ _ hargs hrest => ?_
          obtain ⟨mid', hargs, hclose⟩ := hargs
          exact .ok ⟨_, ⟨mid', harg.append hargs, hclose⟩, hrest⟩
      | closeParen =>
          obtain ⟨hclose, hspan, hrest⟩ := hts₁
          exact .ok ⟨_, ⟨_, harg, hclose, hspan, rfl⟩, hrest⟩
      | _ => exact .error
termination_by 5 * ts.length + 3

theorem parseDefs_laid (next : Nat) {lo : Nat} {ts : List Token}
    (h : InOrder lo (ts.map Token.span) hi) :
    Ensures (Parsed.IsLaid lo hi DefsLaid) (parseDefs stop next ts) := by
  by_cases hhead : ∃ name, StartsWith (.ident name) ts
  · obtain ⟨name, hname⟩ := hhead
    obtain ⟨text, span, ts, rfl⟩ := hname.exists_eq
    rw [parseDefs]
    refine .bindSign h.tail fun ts₁ h₁ hts₁ => ?_
    refine (parseExpr_laid next hts₁).bindParsed fun init n₁ ts₂ h₂ _ hinit hts₂ => ?_
    refine .bindSign hts₂ fun ts₃ h₃ hts₃ => ?_
    refine (parseDefs_laid n₁ hts₃).bindParsed fun defs n₂ rest h₄ _ hdefs hrest => ?_
    exact .ok ⟨_, hinit.append hdefs, hrest⟩
  · rw [parseDefs_of_other fun name hname => hhead ⟨name, hname⟩]
    exact .ok ⟨lo, .nil (Nat.le_refl _), h⟩
termination_by 5 * ts.length
decreasing_by all_goals (subst_vars; simp only [List.length_cons]; omega)
end

/-- The tree that tokens one behind another spell has nested spans. -/
theorem Expr.laid_of_ofTokens {ts : TokenList} {e : Expr} {lo : Nat}
    (hts : InOrder lo (ts.tokens.map Token.span) hi) (h : Expr.ofTokens ts = .ok e) :
    Laid lo [e] hi := by
  have hread : Ensures (fun e => Laid lo [e] hi) (Expr.ofTokens ts) := by
    refine (parseExpr_laid ts.stop 0 hts).bindParsed fun e next rest hfewer mid he hrest => ?_
    cases rest with
    | nil => exact .ok (he.mono (Nat.le_refl _) hrest)
    | cons t rest => exact .error
  exact hread e h

end

end PolicyEval
