import PolicyEval.Proofs.Syntax.Partition

/-!
# Layout does not matter

The tokens of a source depend on the texts of its tokens only.  If these are written out again with
other gaps, reading gives the same signs and the same names, as long as each text has a blank behind
it, or nothing at all.  A comment is not enough, because a `/` in front of it would join it.

* `Reads` — tokens that a source with the given names can have, in order.
* `IsClosed` — a text that is a gap whatever stands behind it.
* `Separates` — gaps that may stand around texts of tokens.
* `layOut` — texts with gaps around them.
* `scan_layOut` — such a text is read as the tokens with these texts.
-/

namespace PolicyEval

/-! ## The tokens of a source -/

/-- The tokens are lexemes with their signs; the tables are those of the names in front of them and
behind them.  Nothing is said about their places. -/
inductive Reads : Interner → List Token → Interner → Prop
  | nil {names : Interner} : Reads names [] names
  | cons {names names' names'' : Interner} {shape : Shape} {text : List Char} {sign : Sign}
      {span : Span} {tokens : List Token} (hlexeme : Lexeme shape text)
      (hsign : Denotes names shape text sign names') (h : Reads names' tokens names'') :
      Reads names (⟨sign, String.ofList text, span⟩ :: tokens) names''

theorem Denotes.of_shape_eq {names names' : Interner} {shape shape' : Shape} {text : List Char}
    {sign : Sign} (hshape : shape = shape') (h : Denotes names shape' text sign names') :
    Denotes names shape text sign names' :=
  hshape ▸ h

/-- Behind the tokens that were read before, the token list has further ones. -/
def ReadsOn (names : Interner) (done : List Token) (ts : TokenList) : Prop :=
  ∃ tokens, ts.tokens = done.reverse ++ tokens ∧ Reads names tokens ts.names

theorem ReadsOn.cons {names names' : Interner} {done : List Token} {ts : TokenList} {c : Char}
    {cs : List Char} {sign : Sign} {span : Span}
    (hsign : Denotes names (cut c cs).shape (cut c cs).text sign names')
    (h : ReadsOn names' (⟨sign, String.ofList (cut c cs).text, span⟩ :: done) ts) :
    ReadsOn names done ts := by
  obtain ⟨tokens, htokens, hreads⟩ := h
  have hlexeme := (cut_isLongest hsign.shape_ne.1 hsign.shape_ne.2).1
  refine ⟨⟨sign, String.ofList (cut c cs).text, span⟩ :: tokens, ?_, .cons hlexeme hsign hreads⟩
  rw [htokens, List.reverse_cons, List.append_assoc, List.singleton_append]

/-- The tokens of a source are lexemes with their signs, whatever the length of the source is. -/
theorem scan_readsOn {offset : Nat} {names : Interner} {done : List Token} {cs : List Char}
    {ts : TokenList} (h : scan offset names done cs = .ok ts) : ReadsOn names done ts := by
  fun_induction scan offset names done cs with
  | case1 offset names done =>
      cases h
      exact ⟨[], (List.append_nil _).symm, .nil⟩
  | case2 offset names done c cs piece stop hshape ih => exact ih h
  | case3 offset names done c cs piece stop span text hshape value hvalue ih =>
      exact .cons (.of_shape_eq hshape (.number hvalue)) (ih h)
  | case5 offset names done c cs piece stop span text hshape sign hword ih =>
      exact .cons (.of_shape_eq hshape (.reserved hword)) (ih h)
  | case6 offset names done c cs piece stop span text hshape hword name names' hintern ih =>
      exact .cons (.of_shape_eq hshape (.ident hword hintern)) (ih h)
  | case7 offset names done c cs piece stop span text sign hshape ih =>
      exact .cons (.of_shape_eq hshape .sign) (ih h)
  | case4 | case8 => cases h

/-! ## Lexemes in front of a blank -/

/-- The text is empty or starts with a blank, so that a lexeme in front of it ends there. -/
def EndsLexeme (cs : List Char) : Prop := ∀ c ∈ cs.head?, isBlank c = true

theorem EndsLexeme.append {cs : List Char} (h : EndsLexeme cs) {rest : List Char}
    (hrest : cs = [] → rest = []) : EndsLexeme (cs ++ rest) := by
  cases cs with
  | nil =>
      rw [hrest rfl]
      exact h
  | cons c cs => exact h

section

variable {rest : List Char}

/-- Characters of other classes than that of blanks do not go on behind a lexeme. -/
theorem EndsLexeme.stop (h : EndsLexeme rest) {part : Char → Bool}
    (hpart : ∀ {c}, part c = true → isBlank c = false) : ∀ c ∈ rest.head?, part c = false := by
  intro c hc
  refine Bool.eq_false_iff.2 fun hc' => ?_
  have hblank := h c hc
  rw [hpart hc'] at hblank
  cases hblank

theorem not_isBlank_of_isWordPart {c : Char} (h : isWordPart c = true) : isBlank c = false := by
  rw [isWordPart, Bool.or_eq_true] at h
  exact h.elim not_isBlank_of_isWordStart not_isBlank_of_isDigit

theorem EndsLexeme.head_ne (h : EndsLexeme rest) {c : Char} (hc : isBlank c = false)
    {cs : List Char} : rest ≠ c :: cs := by
  rintro rfl
  rw [h c rfl] at hc
  cases hc

/-- A sign of one character is not joined by a blank behind it. -/
theorem cutSign_of_endsLexeme {c : Char} {sign : Sign} (hmem : ([c], sign) ∈ signTable)
    (hrest : EndsLexeme rest) : cutSign c rest = ⟨.sign sign, [c], rest⟩ := by
  have heq : ∀ cs, rest ≠ '=' :: cs := fun cs => hrest.head_ne rfl
  simp [signTable, BinaryOp.all, BinaryOp.symbol] at hmem
  unfold cutSign
  split <;> grind

/-- A lexeme in front of a blank, or at the end, is cut where it ends. -/
theorem Lexeme.cut_eq {shape : Shape} {c : Char} {cs : List Char} (h : Lexeme shape (c :: cs))
    (hrest : EndsLexeme rest) : cut c (cs ++ rest) = ⟨shape, c :: cs, rest⟩ := by
  cases h with
  | number hne hdigits =>
      obtain ⟨hc, hcs⟩ := List.forall_mem_cons.1 hdigits
      unfold cut
      rw [not_isBlank_of_isDigit hc, hc]
      exact runOf_append .number [c] (List.all_eq_true.2 hcs) (hrest.stop not_isBlank_of_isDigit)
  | word hstart hparts =>
      unfold cut
      rw [not_isBlank_of_isWordStart hstart, not_isDigit_of_isWordStart hstart, hstart]
      exact runOf_append .word [c] (List.all_eq_true.2 hparts)
        (hrest.stop not_isBlank_of_isWordPart)
  | @sign text sign hmem =>
      obtain ⟨d, hd, hform⟩ := exists_of_mem_signTable hmem
      obtain ⟨hblank, hdigit, hword⟩ := (isSignStart_iff d).1 hd
      rcases hform with hform | hform <;> cases hform
      · unfold cut
        rw [hblank, hdigit, hword]
        -- No comment starts here: the character behind the sign is a blank.
        have hslash : ∀ cs, rest ≠ '/' :: cs := fun cs => hrest.head_ne rfl
        simp only [List.nil_append, Bool.false_eq_true, if_false]
        split
        next heq => exact absurd rfl (hslash _)
        next => exact cutSign_of_endsLexeme hmem hrest
      · unfold cut
        rw [hblank, hdigit, hword]
        simp only [List.singleton_append, Bool.false_eq_true, if_false]
        split
        next heq => cases heq
        next => exact cutSign_of_two rest hmem

/-- A lexeme in front of a blank is read as the sign that it denotes. -/
theorem scan_of_cut {names names' : Interner} {shape : Shape} {c : Char} {cs : List Char}
    {sign : Sign} (hcut : cut c (cs ++ rest) = ⟨shape, c :: cs, rest⟩)
    (hsign : Denotes names shape (c :: cs) sign names') (offset : Nat) (done : List Token) :
    scan offset names done (c :: cs ++ rest) =
      scan (offset + byteLength (c :: cs)) names'
        (⟨sign, String.ofList (c :: cs), Span.saturate offset (offset + byteLength (c :: cs))⟩ ::
          done) rest := by
  rw [List.cons_append, scan]
  cases hsign with
  | number hvalue =>
      have hvalue' : decimalValue (c :: cs) ≤ maxInteger := hvalue
      simp only [hcut, hvalue', if_true]
      rfl
  | reserved hword => simp only [hcut, hword]
  | ident hword hname => simp only [hcut, hword, hname]
  | sign => simp only [hcut]

/-! ## Gaps -/

/-- A comment in front of the end of its line gives no sign. -/
theorem lexes_comment {names : Interner} {text : List Char} (htext : '\n' ∉ text)
    (hend : ∀ c ∈ rest.head?, c = '\n') : Lexes names ('/' :: '/' :: text) [] rest := by
  have hpart : text.all isCommentPart = true := by
    refine List.all_eq_true.2 fun c hc => ?_
    simp only [isCommentPart, bne_iff_ne]
    rintro rfl
    exact htext hc
  have hstop : ∀ c ∈ rest.head?, isCommentPart c = false := by
    intro c hc
    rw [hend c hc]
    rfl
  have hcut : cut '/' ('/' :: (text ++ rest)) = ⟨.gap, '/' :: '/' :: text, rest⟩ :=
    runOf_append .gap ['/', '/'] hpart hstop
  intro offset done
  refine ⟨offset + byteLength ('/' :: '/' :: text), [], rfl, ?_⟩
  rw [List.cons_append, List.cons_append, scan]
  simp only [hcut, List.reverse_nil, List.nil_append]

/-- Gaps give no sign. -/
theorem Gap.lexes {gap : List Char} (h : Gap rest gap) (names : Interner) :
    Lexes names gap [] rest := by
  induction h with
  | nil => exact .nil
  | blank hblank _ ih => exact (lexes_isBlank hblank).append ih
  | comment htext hend _ ih => exact (lexes_comment htext hend).append ih

/-- Reading goes on behind a gap, with the same tokens and names. -/
theorem Gap.exists_scan {gap : List Char} (h : Gap rest gap) (offset : Nat) (names : Interner)
    (done : List Token) :
    ∃ offset', scan offset names done (gap ++ rest) = scan offset' names done rest := by
  obtain ⟨offset', tokens, htokens, hscan⟩ := h.lexes names offset done
  rw [List.map_eq_nil_iff] at htokens
  rw [htokens] at hscan
  exact ⟨offset', hscan⟩

end

/-- The text is a gap whatever stands behind it: each of its comments is ended by a newline. -/
def IsClosed (gap : List Char) : Prop := ∀ rest, Gap rest gap

namespace IsClosed

theorem nil : IsClosed [] := fun _ => .nil

theorem blank {c : Char} {gap : List Char} (hblank : isBlank c = true) (h : IsClosed gap) :
    IsClosed (c :: gap) :=
  fun rest => .blank hblank (h rest)

theorem comment {text gap : List Char} (htext : '\n' ∉ text) (h : IsClosed gap) :
    IsClosed ('/' :: '/' :: (text ++ '\n' :: gap)) := by
  refine fun rest => .comment htext ?_ (.blank rfl (h rest))
  rintro c ⟨⟩
  rfl

end IsClosed

/-! ## Texts with gaps around them -/

/-- The first gap and the gaps behind it may stand around texts.  Each gap is closed, except that the
last comment of the last gap may end with the source.  Each gap behind a text starts with a blank,
except that the last one may be empty. -/
inductive Separates : List Char → List (List Char) → Prop
  | last {gap : List Char} (h : Gap [] gap) : Separates gap []
  | between {gap next : List Char} {gaps : List (List Char)} (hclosed : IsClosed gap)
      (hnext : EndsLexeme next) (hempty : next = [] → gaps = []) (h : Separates next gaps) :
      Separates gap (next :: gaps)

/-- The first gap, and the texts, each with the gap behind it. -/
def layOut (first : List Char) : List String → List (List Char) → List Char
  | text :: texts, gap :: gaps => first ++ (text.toList ++ layOut gap texts gaps)
  | _, _ => first

/-- Each text ends where the gap behind it starts. -/
theorem endsLexeme_layOut {next : List Char} {gaps : List (List Char)} (hnext : EndsLexeme next)
    (hempty : next = [] → gaps = []) (texts : List String) :
    EndsLexeme (layOut next texts gaps) := by
  cases texts with
  | nil => exact hnext
  | cons text texts =>
      cases gaps with
      | nil => exact hnext
      | cons gap gaps => exact hnext.append fun h => absurd (hempty h) (List.cons_ne_nil _ _)

/-- Texts of tokens with gaps around them are read as these tokens, at other places. -/
theorem scan_layOut {names names' : Interner} {tokens : List Token}
    (hreads : Reads names tokens names') {first : List Char} {gaps : List (List Char)}
    (hgaps : Separates first gaps) (hlength : gaps.length = tokens.length) (offset : Nat)
    (done : List Token) :
    ∃ (stop : Span) (tokens' : List Token),
      scan offset names done (layOut first (tokens.map Token.text) gaps) =
        .ok ⟨done.reverse ++ tokens', stop, names'⟩ ∧
      tokens'.map Token.sign = tokens.map Token.sign ∧
      tokens'.map Token.text = tokens.map Token.text := by
  induction hreads generalizing first gaps offset done with
  | nil =>
      obtain rfl := List.eq_nil_of_length_eq_zero hlength
      cases hgaps with
      | last hgap =>
          obtain ⟨offset', hscan⟩ := hgap.exists_scan offset _ done
          rw [List.append_nil] at hscan
          refine ⟨Span.saturate offset' offset', [], ?_, rfl, rfl⟩
          rw [show layOut first _ [] = first from rfl, hscan, scan, List.append_nil]
  | @cons names names' names'' shape text sign span tokens hlexeme hsign _ ih =>
      cases hgaps with
      | last => simp at hlength
      | @between _ next gaps hclosed hnext hempty hrest =>
          let rest := layOut next (tokens.map Token.text) gaps
          obtain ⟨c, cs, rfl, -⟩ := hlexeme.exists_cons
          have hcut : cut c (cs ++ rest) = ⟨shape, c :: cs, rest⟩ :=
            hlexeme.cut_eq (endsLexeme_layOut hnext hempty _)
          obtain ⟨start, hgap⟩ := (hclosed (c :: cs ++ rest)).exists_scan offset names done
          have htoken := scan_of_cut hcut hsign start done
          let token : Token := ⟨sign, String.ofList (c :: cs),
            Span.saturate start (start + byteLength (c :: cs))⟩
          obtain ⟨stop, tokens', hscan, hsigns, htexts⟩ :=
            ih hrest (by simpa using hlength) (start + byteLength (c :: cs)) (token :: done)
          refine ⟨stop, token :: tokens', ?_, congrArg (sign :: ·) hsigns,
            congrArg (String.ofList (c :: cs) :: ·) htexts⟩
          rw [List.map_cons, layOut, String.toList_ofList, hgap, htoken, hscan, List.reverse_cons,
            List.append_assoc, List.singleton_append]

/-- A source whose tokens have the same texts in the same order, with other gaps around them, has
the same tokens at other places, and the same names. -/
theorem ofSourceWith_layOut {names : Interner} {source : String} {ts : TokenList}
    (h : TokenList.ofSourceWith names source = .ok ts) {first : List Char}
    {gaps : List (List Char)} (hgaps : Separates first gaps)
    (hlength : gaps.length = ts.tokens.length) :
    ∃ ts', TokenList.ofSourceWith names
        (String.ofList (layOut first (ts.tokens.map Token.text) gaps)) = .ok ts' ∧
      ts'.tokens.map Token.sign = ts.tokens.map Token.sign ∧
      ts'.tokens.map Token.text = ts.tokens.map Token.text ∧ ts'.names = ts.names := by
  obtain ⟨tokens, htokens, hreads⟩ := scan_readsOn h
  obtain rfl : ts.tokens = tokens := htokens
  obtain ⟨stop, tokens', hscan, hsigns, htexts⟩ := scan_layOut hreads hgaps hlength 0 []
  refine ⟨⟨tokens', stop, ts.names⟩, ?_, hsigns, htexts, rfl⟩
  rw [TokenList.ofSourceWith, String.toList_ofList]
  exact hscan

/-- A comment in front of everything, one behind the `/`, with a blank in front of it, and one that
ends with the source: the tokens are those of the source without blanks. -/
theorem ofSourceWith_layOut_division :
    let ts : TokenList :=
      ⟨[⟨.ident ⟨1, "n"⟩, "n", ⟨0, 1⟩⟩, ⟨.operator .div, "/", ⟨1, 2⟩⟩, ⟨.int 2, "2", ⟨2, 3⟩⟩],
        ⟨3, 3⟩, ⟨#["", "n"]⟩⟩
    let first := "//a\n".toList
    let gaps := [" ".toList, " //b\n".toList, "\t//c".toList]
    TokenList.ofSourceWith .empty "n/2" = .ok ts ∧ Separates first gaps ∧
      gaps.length = ts.tokens.length ∧
      layOut first (ts.tokens.map Token.text) gaps = "//a\nn / //b\n2\t//c".toList ∧
      ∃ ts', TokenList.ofSourceWith .empty
          (String.ofList (layOut first (ts.tokens.map Token.text) gaps)) = .ok ts' ∧
        ts'.tokens.map Token.sign = ts.tokens.map Token.sign ∧
        ts'.tokens.map Token.text = ts.tokens.map Token.text ∧ ts'.names = ts.names := by
  intro ts first gaps
  have hread : TokenList.ofSourceWith .empty "n/2" = .ok ts := by with_unfolding_all rfl
  have hfirst : IsClosed first := IsClosed.nil.comment (show '\n' ∉ ['a'] by decide)
  have hmiddle : IsClosed " //b\n".toList :=
    (IsClosed.nil.comment (show '\n' ∉ ['b'] by decide)).blank rfl
  have hlast : Gap [] "\t//c".toList :=
    .blank rfl (.comment (show '\n' ∉ ['c'] by decide) nofun .nil)
  have hgaps : Separates first gaps :=
    .between hfirst (by rintro c ⟨⟩; rfl) nofun <|
      .between (IsClosed.nil.blank rfl) (by rintro c ⟨⟩; rfl) nofun <|
        .between hmiddle (by rintro c ⟨⟩; rfl) nofun <| .last hlast
  exact ⟨hread, hgaps, rfl, rfl, ofSourceWith_layOut hread hgaps rfl⟩

end PolicyEval
