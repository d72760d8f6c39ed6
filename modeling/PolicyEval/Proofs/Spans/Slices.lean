import PolicyEval.Proofs.Likeness.Running
import PolicyEval.Proofs.Likeness.Scopes
import PolicyEval.Proofs.Syntax.Numbering
import PolicyEval.Proofs.Syntax.Partition

/-!
# Spans are slices of the source

Spans start as the byte offsets of tokens, are merged into the spans of expressions and travel with
these into checks, suspended expressions and reports.  Everywhere they cut the source between two
characters, so a report can count characters instead of bytes.

* `Span.IsSlice` — the span cuts the source between characters.
* `Span.IsSlice.exists_append` — the three parts into which a slice cuts its source, and their
  numbers of characters.
* `Tiling.isSlice` — tokens.
* `Likeness.slices` — a program is like itself if its spans are slices.
* `Problem.Arises`, `Problem.Arises.isSlice` — failures.
* `Diagnostic.Marks`, `Problem.marks` — the labels of reports are on the places of the failures.
* `spans_are_slices` — everything that is reported about a source.
-/

namespace PolicyEval

/-! ## Slices -/

/-- The span does not end before it starts or behind the source, and both its ends are boundaries
between characters. -/
structure Span.IsSlice (source : String) (s : Span) : Prop where
  start_le_stop : s.start ≤ s.stop
  stop_le_size : s.stop ≤ source.utf8ByteSize
  start_isValid : String.Pos.Raw.IsValid source ⟨s.start⟩
  stop_isValid : String.Pos.Raw.IsValid source ⟨s.stop⟩

theorem isValid_iff_byteLength {source : String} {offset : Nat} :
    String.Pos.Raw.IsValid source ⟨offset⟩ ↔
      ∃ cs ds : List Char, source.toList = cs ++ ds ∧ offset = byteLength cs := by
  rw [String.Pos.Raw.isValid_iff_exists_append]
  constructor
  · rintro ⟨s, t, rfl, hoffset⟩
    refine ⟨s.toList, t.toList, String.toList_append, ?_⟩
    rw [byteLength_toList]
    exact congrArg String.Pos.Raw.byteIdx hoffset
  · rintro ⟨cs, ds, hsource, rfl⟩
    refine ⟨String.ofList cs, String.ofList ds, ?_, ?_⟩
    · rw [← String.ofList_append, ← hsource, String.ofList_toList]
    · have hbytes := byteLength_toList (String.ofList cs)
      rw [String.toList_ofList] at hbytes
      exact congrArg String.Pos.Raw.mk hbytes

namespace Span.IsSlice

variable {source : String}

theorem of_append {before text rest : List Char} (h : source.toList = before ++ (text ++ rest)) :
    IsSlice source ⟨byteLength before, byteLength before + byteLength text⟩ where
  start_le_stop := Nat.le_add_right _ _
  stop_le_size := by
    rw [← byteLength_toList, h, byteLength_append, byteLength_append, ← Nat.add_assoc]
    exact Nat.le_add_right _ _
  start_isValid := isValid_iff_byteLength.2 ⟨before, text ++ rest, h, rfl⟩
  stop_isValid := isValid_iff_byteLength.2
    ⟨before ++ text, rest, by rw [h, List.append_assoc], (byteLength_append before text).symm⟩

theorem merge {a b : Span} (ha : a.IsSlice source) (hb : b.IsSlice source) :
    (a.merge b).IsSlice source where
  start_le_stop := by
    have hle := ha.start_le_stop
    simp only [Span.merge]
    omega
  stop_le_size := Nat.max_le.2 ⟨ha.stop_le_size, hb.stop_le_size⟩
  start_isValid := by
    rcases Nat.le_total a.start b.start with hle | hle
    · simpa only [Span.merge, Nat.min_eq_left hle] using ha.start_isValid
    · simpa only [Span.merge, Nat.min_eq_right hle] using hb.start_isValid
  stop_isValid := by
    rcases Nat.le_total a.stop b.stop with hle | hle
    · simpa only [Span.merge, Nat.max_eq_right hle] using hb.stop_isValid
    · simpa only [Span.merge, Nat.max_eq_left hle] using ha.stop_isValid

end Span.IsSlice

/-! ## Characters -/

theorem eq_nil_of_byteLength {cs : List Char} (h : byteLength cs = 0) : cs = [] := by
  cases cs with
  | nil => rfl
  | cons c cs =>
      have hpos := c.utf8Size_pos
      rw [byteLength] at h
      omega

/-- Of two texts at the start of one text, the one with fewer bytes is at the start of the other. -/
theorem exists_append_of_byteLength_le {cs ds cs' ds' : List Char} (h : cs ++ ds = cs' ++ ds')
    (hle : byteLength cs ≤ byteLength cs') : ∃ more, cs' = cs ++ more := by
  rcases List.append_eq_append_iff.1 h with ⟨more, hmore, -⟩ | ⟨more, hmore, -⟩
  · exact ⟨more, hmore⟩
  · subst hmore
    rw [byteLength_append] at hle
    have hnil : more = [] := eq_nil_of_byteLength (by omega)
    exact ⟨[], by rw [hnil, List.append_nil, List.append_nil]⟩

/-- Before the end of a text at the start of a source there are the characters of that text. -/
theorem Position.charsBefore_byteLength (cs ds : List Char) :
    charsBefore (cs ++ ds) (byteLength cs) = cs.length := by
  induction cs with
  | nil => cases ds <;> simp [byteLength, charsBefore]
  | cons c cs ih =>
      have hpos := c.utf8Size_pos
      have hne : byteLength (c :: cs) ≠ 0 := by
        rw [byteLength]
        omega
      have hrest : byteLength (c :: cs) - c.utf8Size = byteLength cs := by
        rw [byteLength]
        omega
      rw [List.cons_append, charsBefore, if_neg hne, hrest, ih, List.length_cons]

/-- A slice cuts its source into three parts, and its range of characters says how many characters
the parts have. -/
theorem Span.IsSlice.exists_append {source : String} {s : Span} (h : s.IsSlice source) :
    ∃ before text after : String, source = before ++ text ++ after ∧
      s = ⟨before.utf8ByteSize, (before ++ text).utf8ByteSize⟩ ∧
      Position.charRange source s = (before.length, (before ++ text).length) := by
  obtain ⟨cs, ds, hcs, hstart⟩ := isValid_iff_byteLength.1 h.start_isValid
  obtain ⟨cs', ds', hcs', hstop⟩ := isValid_iff_byteLength.1 h.stop_isValid
  -- The text before the one end is a part of the text before the other.
  have hle : byteLength cs ≤ byteLength cs' := by
    rw [← hstart, ← hstop]
    exact h.start_le_stop
  obtain ⟨more, rfl⟩ := exists_append_of_byteLength_le (hcs.symm.trans hcs') hle
  have hbytes (cs : List Char) : (String.ofList cs).utf8ByteSize = byteLength cs := by
    rw [← byteLength_toList, String.toList_ofList]
  refine ⟨String.ofList cs, String.ofList more, String.ofList ds', ?_, ?_, ?_⟩
  · rw [← String.ofList_append, ← String.ofList_append, ← hcs', String.ofList_toList]
  · rw [← String.ofList_append, hbytes, hbytes, ← hstart, ← hstop]
  · have hbefore : Position.charsBefore source.toList s.start = cs.length := by
      rw [hcs, hstart, Position.charsBefore_byteLength]
    have hthrough : Position.charsBefore source.toList s.stop = (cs ++ more).length := by
      rw [hcs', hstop, Position.charsBefore_byteLength]
    have hmax : max (cs ++ more).length cs.length = (cs ++ more).length :=
      Nat.max_eq_left (by simp)
    rw [Position.charRange, hbefore, hthrough, hmax, ← String.ofList_append, String.length_ofList,
      String.length_ofList]

/-! ## Tokens -/

/-- The spans of the tokens of a text that stands behind `done` in its source. -/
theorem Tiling.isSlice {source : String} {rest cs : List Char} {offset : Nat}
    {names names' : Interner} {tokens : List Token}
    (h : Tiling rest offset names cs tokens names') (done : List Char)
    (hsource : source.toList = done ++ (cs ++ rest)) (hoffset : offset = byteLength done) :
    ∀ t ∈ tokens, t.span.IsSlice source := by
  induction h generalizing done with
  | gap => exact nofun
  | @token start stop offset _ _ _ _ _ gap text more tokens _ _ _ _ hstart hstop _ ih =>
      have hwhole : source.toList = (done ++ gap) ++ (text ++ (more ++ rest)) := by
        rw [hsource]
        simp only [List.append_assoc]
      have hbegin : start = byteLength (done ++ gap) := by
        rw [hstart, hoffset, byteLength_append]
      intro t ht
      rcases List.mem_cons.1 ht with rfl | ht
      · rw [hstop, hbegin]
        exact .of_append hwhole
      · refine ih (done ++ gap ++ text) ?_ ?_ t ht
        · rw [hwhole, ← List.append_assoc _ text]
        · rw [hstop, hbegin, byteLength_append _ text]

section

variable {names : Interner} {source : String} (hsize : source.utf8ByteSize ≤ Span.maxOffset)
include hsize

theorem TokenList.isSlice {ts : TokenList} (h : TokenList.ofSourceWith names source = .ok ts) :
    (∀ t ∈ ts.tokens, t.span.IsSlice source) ∧ ts.stop.IsSlice source := by
  have haccounts := TokenList.ofSourceWith_accounts names source hsize
  rw [h] at haccounts
  obtain ⟨htiling, hstop⟩ := haccounts
  refine ⟨htiling.isSlice [] (by simp) rfl, ?_⟩
  have hend : source.toList = source.toList ++ ([] ++ []) := by simp
  rw [hstop, Nat.zero_add]
  exact .of_append hend

theorem LexError.isSlice {e : LexError} (h : TokenList.ofSourceWith names source = .error e) :
    e.span.IsSlice source := by
  have haccounts := TokenList.ofSourceWith_accounts names source hsize
  rw [h] at haccounts
  obtain ⟨before, text, rest, tokens, names', hsource, -, hspan, -⟩ := haccounts
  rw [hspan, Nat.zero_add]
  exact .of_append hsource

end

/-! ## Expressions -/

/-- Everything is like itself only, and a span only if it is a slice of the source. -/
def Likeness.slices (source : String) : Likeness where
  name := Eq
  span s s' := s = s' ∧ s.IsSlice source
  text_eq h := congrArg Name.text h
  same_eq h h' := by rw [h, h']
  merge h h' := ⟨by rw [h.1, h'.1], h.2.merge h'.2⟩

theorem Token.alike_slices {source : String} {t : Token} (h : t.span.IsSlice source) :
    t.Alike (.slices source) t := by
  refine ⟨?_, rfl, rfl, h⟩
  cases hsign : t.sign with
  | ident name => exact .ident rfl
  | _ => exact .other rfl

namespace Expr

/-- The names that the root node binds. -/
def binders : Expr → List Binder
  | map _ params _ => params
  | letIn _ defs _ => defs.map Prod.fst
  | _ => []

variable {L : Likeness}

theorem ListAlike.of_mem {es : List Expr} (h : ListAlike L es es) {e : Expr} (he : e ∈ es) :
    e.Alike L e := by
  induction es with
  | nil => cases he
  | cons e' es ih =>
      cases h with
      | cons hhead htail =>
          rcases List.mem_cons.1 he with rfl | he
          · exact hhead
          · exact ih htail he

theorem Alike.of_mem_parts (e : Expr) (h : e.Alike L e) : ∀ part ∈ e.parts, part.Alike L part := by
  intro part hpart
  cases h with
  | int | bool | null | ident | prim => cases hpart
  | unary _ _ he => exact ListAlike.of_mem (.cons he .nil) hpart
  | binary _ _ hleft hright => exact ListAlike.of_mem (.cons hleft (.cons hright .nil)) hpart
  | call _ hcallee hargs => exact ListAlike.of_mem (.cons hcallee hargs) hpart
  | map _ _ hbody => exact ListAlike.of_mem (.cons hbody .nil) hpart
  | cond _ htest hyes hno =>
      exact ListAlike.of_mem (.cons htest (.cons hyes (.cons hno .nil))) hpart
  | letIn _ hdefs hbody => exact ListAlike.of_mem (hdefs.inits.append (.cons hbody .nil)) hpart

theorem Alike.of_mem_binders {e : Expr} (h : e.Alike L e) : ∀ b ∈ e.binders, b.Alike L b := by
  cases h with
  | map _ hparams => exact List.forall₂_same.1 hparams
  | letIn _ hdefs => exact List.forall₂_same.1 hdefs.binders
  | int | bool | null | ident | prim | unary | binary | call | cond => exact nofun

end Expr

/-! ## Failures -/

namespace Problem

/-- The failures that a source can run into: while its tokens or its expression are read, in a
check, or in an evaluation, which need not wait for a check. -/
inductive Arises (names : Interner) (source : String) : Problem → Prop
  | lex {e : LexError} (h : TokenList.ofSourceWith names source = .error e) :
      Arises names source (.unreadable (.lex e))
  | parse {e : SyntaxError} (h : Expr.ofSourceWith names source = .error e) :
      Arises names source (.unreadable e)
  | scope {root : Expr} {names' : Interner} {mode : ScopeMode} {e : ScopeError}
      (hread : Expr.ofSourceWith names source = .ok (root, names'))
      (h : checkScopes mode root = .error e) : Arises names source (.illScoped e)
  | fault {root : Expr} {names' : Interner} {fuel : Nat} {config : Config} {f : Fault}
      (hread : Expr.ofSourceWith names source = .ok (root, names'))
      (h : ((runProgram fuel config root).report .empty).result = .error (.fault f)) :
      Arises names source (.fault f)

/-- All places that the failure is about, its own place first. -/
def spans : Problem → List Span
  | illScoped ⟨.duplicateBinding _ _ first, span⟩ => [span, first]
  | p => p.span?.toList

end Problem

/-! ## Labels -/

/-- The places that labels are on, and those that primary labels are on. -/
def Diagnostic.Marks (d : Diagnostic) (all primary : List Span) : Prop :=
  d.labels.map Label.span = all ∧ (d.labels.filter Label.primary).map Label.span = primary

theorem Diagnostic.labels_foldl_withNote (notes : List String) (d : Diagnostic) :
    (notes.foldl withNote d).labels = d.labels := by
  induction notes generalizing d with
  | nil => rfl
  | cons note notes ih => exact ih (d.withNote note)

theorem LexError.marks (e : LexError) : e.diagnostic.Marks [e.span] [e.span] := by
  unfold LexError.diagnostic
  split <;> exact ⟨rfl, rfl⟩

theorem ParseError.marks (e : ParseError) : e.diagnostic.Marks [e.span] [e.span] := by
  unfold ParseError.diagnostic
  split <;> exact ⟨rfl, rfl⟩

theorem Fault.marks (f : Fault) : f.diagnostic.Marks f.span.toList f.span.toList := by
  unfold Fault.diagnostic Diagnostic.Marks
  rw [Diagnostic.labels_foldl_withNote]
  split
  · next span hspan => rw [hspan]; exact ⟨rfl, rfl⟩
  · next hspan => rw [hspan]; exact ⟨rfl, rfl⟩

/-- The labels of a report are on the places that the failure is about, and the primary ones on its
own place. -/
theorem Problem.marks (p : Problem) : p.diagnostic.Marks p.spans p.span?.toList := by
  rcases p with (e | e) | ⟨_ | _, span⟩ | f
  · exact e.marks
  · exact e.marks
  · exact ⟨rfl, rfl⟩
  · exact ⟨rfl, rfl⟩
  · exact f.marks

theorem Diagnostic.Marks.primarySpan?_eq {d : Diagnostic} {all : List Span} {place : Option Span}
    (h : d.Marks all place.toList) : d.primarySpan? = place := by
  have hfirst := congrArg List.head? h.2
  rw [List.head?_map, List.head?_filter] at hfirst
  rw [Diagnostic.primarySpan?, hfirst]
  cases place <;> rfl

/-! ## Programs and their failures -/

section

variable {names : Interner} {source : String} (hsize : source.utf8ByteSize ≤ Span.maxOffset)
include hsize

/-- The program of a source is like itself, or the place where the source cannot be read is a
slice. -/
theorem Expr.ofSourceWith_slices (names : Interner) :
    ExceptRel (fun e _ => e.span.IsSlice source) (fun r r' => r.1.Alike (.slices source) r'.1)
      (Expr.ofSourceWith names source) (Expr.ofSourceWith names source) := by
  unfold Expr.ofSourceWith
  cases hlex : TokenList.ofSourceWith names source with
  | error e => exact .error (LexError.isSlice hsize hlex)
  | ok ts =>
      obtain ⟨htokens, hstop⟩ := TokenList.isSlice hsize hlex
      have halike : List.Forall₂ (Token.Alike (.slices source)) ts.tokens ts.tokens :=
        List.forall₂_same.2 fun t ht => Token.alike_slices (htokens t ht)
      have hend : (Likeness.slices source).span ts.stop ts.stop := ⟨rfl, hstop⟩
      have hparse := Expr.ofTokens_alike hend halike
      dsimp only
      generalize Expr.ofTokens ts = tree at hparse ⊢
      cases hparse with
      | error h => exact .error h.span.2
      | ok h => exact .ok h

theorem Expr.alike_slices {root : Expr} {names' : Interner}
    (h : Expr.ofSourceWith names source = .ok (root, names')) :
    root.Alike (.slices source) root := by
  have hread := Expr.ofSourceWith_slices hsize names
  rw [h] at hread
  cases hread with
  | ok hroot => exact hroot

/-- All places that a failure is about are slices of the source. -/
theorem Problem.Arises.isSlice {p : Problem} (h : p.Arises names source) :
    ∀ span ∈ p.spans, span.IsSlice source := by
  cases h with
  | lex h =>
      intro span hspan
      obtain rfl := List.mem_singleton.1 hspan
      exact LexError.isSlice hsize h
  | parse h =>
      have hread := Expr.ofSourceWith_slices hsize names
      rw [h] at hread
      intro span hspan
      obtain rfl := List.mem_singleton.1 hspan
      cases hread with
      | error hslice => exact hslice
  | @scope _ _ mode e hread h =>
      have hcheck := checkScopes_alike mode (Expr.alike_slices hsize hread)
      rw [h] at hcheck
      obtain ⟨cause, span⟩ := e
      cases hcheck with
      | error herror =>
          obtain ⟨hcause, hspan⟩ := herror
          cases hcause with
          | freeVariable =>
              intro s hs
              obtain rfl := List.mem_singleton.1 hs
              exact hspan.2
          | duplicateBinding _ _ hfirst =>
              intro s hs
              rcases List.mem_pair.1 hs with rfl | rfl
              · exact hspan.2
              · exact hfirst.2
  | @fault _ _ fuel config f hread h =>
      have hrun := (runProgram_alike fuel config (Expr.alike_slices hsize hread)).report.1
      rw [h] at hrun
      obtain ⟨cause, span?⟩ := f
      cases hrun with
      | error hstop =>
          cases hstop with
          | fault hfault =>
              obtain ⟨-, hspan⟩ := hfault
              intro s hs
              cases hspan with
              | none => cases hs
              | some hspan =>
                  obtain rfl := List.mem_singleton.1 hs
                  exact hspan.2

end

/-- Every span that is reported about a source of less than 2³² bytes is a slice of it: those of its
tokens and of its end, those of its nodes and of the names that they bind, and those of its failures
and of the labels on them, of which the primary ones are on the place of the failure.  And the
range of characters of a slice counts the characters before its ends. -/
theorem spans_are_slices (names : Interner) (source : String)
    (hsize : source.utf8ByteSize ≤ Span.maxOffset) :
    (∀ ts, TokenList.ofSourceWith names source = .ok ts →
      (∀ t ∈ ts.tokens, t.span.IsSlice source) ∧ ts.stop.IsSlice source) ∧
    (∀ root names', Expr.ofSourceWith names source = .ok (root, names') →
      ∀ e ∈ root.postorder, e.span.IsSlice source ∧ ∀ b ∈ e.binders, b.span.IsSlice source) ∧
    (∀ p : Problem, p.Arises names source →
      (∀ span ∈ p.spans, span.IsSlice source) ∧
      (∀ label ∈ p.diagnostic.labels, label.span.IsSlice source) ∧
      (∀ label ∈ p.diagnostic.labels, label.primary = true → p.span? = some label.span) ∧
      p.diagnostic.primarySpan? = p.span?) ∧
    ∀ span : Span, span.IsSlice source →
      (Position.charRange source span).1 ≤ (Position.charRange source span).2 ∧
      (Position.charRange source span).2 ≤ source.length ∧
      ∃ before text after : String, source = before ++ text ++ after ∧
        span = ⟨before.utf8ByteSize, (before ++ text).utf8ByteSize⟩ ∧
        Position.charRange source span = (before.length, (before ++ text).length) := by
  refine ⟨fun ts h => TokenList.isSlice hsize h, ?_, ?_, ?_⟩
  · intro root names' h e he
    have hnode := Expr.forall_mem_postorder Expr.Alike.of_mem_parts (Expr.alike_slices hsize h) e he
    exact ⟨hnode.span.2, fun b hb => (hnode.of_mem_binders b hb).span.2⟩
  · intro p h
    obtain ⟨hall, hprimary⟩ := p.marks
    have hslice := h.isSlice hsize
    refine ⟨hslice, ?_, ?_, p.marks.primarySpan?_eq⟩
    · intro label hlabel
      refine hslice label.span ?_
      rw [← hall]
      exact List.mem_map_of_mem hlabel
    · intro label hlabel htrue
      have hmem : label.span ∈ p.span?.toList := by
        rw [← hprimary]
        exact List.mem_map_of_mem (List.mem_filter.2 ⟨hlabel, htrue⟩)
      exact Option.mem_toList.1 hmem
  · intro span h
    obtain ⟨before, text, after, hsource, hspan, hrange⟩ := h.exists_append
    refine ⟨?_, ?_, before, text, after, hsource, hspan, hrange⟩
    · rw [hrange, String.length_append]
      exact Nat.le_add_right _ _
    · rw [hrange, hsource, String.length_append _ after]
      exact Nat.le_add_right _ _

/-- A comment with a character of two bytes stands before `map x, x to x`.  The second `x` is
reported together with the first, and characters are counted one behind the bytes. -/
theorem spans_are_slices_duplicate :
    let source := "//é\nmap x, x to x"
    let p : Problem := .illScoped ⟨.duplicateBinding ⟨1, "x"⟩ .map ⟨9, 10⟩, ⟨12, 13⟩⟩
    p.Arises .empty source ∧
      (∀ label ∈ p.diagnostic.labels, label.span.IsSlice source) ∧
      p.diagnostic.labels.map (fun label => Position.charRange source label.span) =
        [(11, 12), (8, 9)] := by
  intro source p
  -- The kernel reads and checks the source; the tree itself need not be spelled out.
  have hcheck : (Expr.ofSourceWith .empty source).toOption.map
      (fun read => checkScopes .lexical read.1) =
        some (.error ⟨.duplicateBinding ⟨1, "x"⟩ .map ⟨9, 10⟩, ⟨12, 13⟩⟩) := by
    decide +kernel
  have harises : p.Arises .empty source := by
    cases hread : Expr.ofSourceWith .empty source with
    | error e => rw [hread] at hcheck; cases hcheck
    | ok read => rw [hread] at hcheck; exact .scope hread (Option.some.inj hcheck)
  have hspans := spans_are_slices .empty source (by decide)
  exact ⟨harises, (hspans.2.2.1 p harises).2.1, by decide⟩

end PolicyEval
