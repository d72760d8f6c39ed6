import PolicyEval.Proofs.Syntax.Lexemes

/-!
# A token list partitions its source

The texts of the tokens and the gaps between them, put one behind the other, are the source.  Each
token stands where its span says, its text is the longest lexeme there, and its sign is what that
lexeme denotes.  Where no token list exists, the same holds of everything in front of the place that
is reported, and the text at that place is the reason.

* `Denotes` — the sign of a lexeme, and the table of names behind it.
* `Tiling` — gap, token, gap, …, token, gap.
* `Accounts` — what a reading says about the text that it was read from.
* `scan_accounts`, `TokenList.ofSourceWith_accounts` — reading accounts for the whole text.
-/

namespace PolicyEval

/-- The sign of a lexeme, whose names are in the first table, and the table with its own name. -/
inductive Denotes (names : Interner) : Shape → List Char → Sign → Interner → Prop
  | number {text : List Char} (h : Nat.ofDigitChars 10 text 0 ≤ maxInteger) :
      Denotes names .number text (.int (Nat.ofDigitChars 10 text 0)) names
  | reserved {text : List Char} {sign : Sign}
      (h : Sign.ofWord? (String.ofList text) = some sign) : Denotes names .word text sign names
  | ident {text : List Char} {name : Name} {names' : Interner}
      (h : Sign.ofWord? (String.ofList text) = none)
      (hname : names.intern (String.ofList text) = (name, names')) :
      Denotes names .word text (.ident name) names'
  | sign {text : List Char} {sign : Sign} : Denotes names (.sign sign) text sign names

theorem Denotes.shape_ne {names names' : Interner} {shape : Shape} {text : List Char} {sign : Sign}
    (h : Denotes names shape text sign names') : shape ≠ .gap ∧ shape ≠ .invalid := by
  cases h <;> simp

/-- A text in front of `rest` is a gap, a token, a gap, …, a token and a gap.  It starts at the
given byte of its source, and the tables are those of the names in front of it and behind it. -/
inductive Tiling (rest : List Char) : Nat → Interner → List Char → List Token → Interner → Prop
  | gap {offset : Nat} {names : Interner} {gap : List Char} (h : Gap rest gap) :
      Tiling rest offset names gap [] names
  | token {start stop offset : Nat} {names names' names'' : Interner} {shape : Shape} {sign : Sign}
      {gap text more : List Char} {tokens : List Token}
      (hgap : Gap (text ++ (more ++ rest)) gap) (hlexeme : Lexeme shape text)
      (hlongest : IsLongest text (more ++ rest)) (hsign : Denotes names shape text sign names')
      (hstart : start = offset + byteLength gap) (hstop : stop = start + byteLength text)
      (h : Tiling rest stop names' more tokens names'') :
      Tiling rest offset names (gap ++ (text ++ more))
        (⟨sign, String.ofList text, ⟨start, stop⟩⟩ :: tokens) names''

/-- The text in front of `rest` is a reason not to go on. -/
inductive LexCause.Arises : LexCause → List Char → List Char → Prop
  | unexpectedChar {c : Char} {rest : List Char} (hgap : ¬StartsGap (c :: rest))
      (hlexeme : ∀ shape text, Lexeme shape text → ¬text <+: c :: rest) :
      Arises (.unexpectedChar c) [c] rest
  | integerOutOfRange {text rest : List Char} (hlexeme : Lexeme .number text)
      (hlongest : IsLongest text rest) (hvalue : maxInteger < Nat.ofDigitChars 10 text 0) :
      Arises (.integerOutOfRange (String.ofList text)) text rest

/-- What a reading says about the text that it was read from: the tokens, up to the end, or the
first place where none can be read. -/
def Accounts (offset : Nat) (names : Interner) (cs : List Char) : Except LexError TokenList → Prop
  | .ok ts =>
    Tiling [] offset names cs ts.tokens ts.names ∧
      ts.stop = ⟨offset + byteLength cs, offset + byteLength cs⟩
  | .error e =>
    ∃ (before text rest : List Char) (tokens : List Token) (names' : Interner),
      cs = before ++ (text ++ rest) ∧ Tiling (text ++ rest) offset names before tokens names' ∧
      e.span = ⟨offset + byteLength before, offset + byteLength before + byteLength text⟩ ∧
      e.cause.Arises text rest

/-! ## Bytes -/

@[simp] theorem byteLength_append (cs ds : List Char) :
    byteLength (cs ++ ds) = byteLength cs + byteLength ds := by
  induction cs with
  | nil => simp [byteLength]
  | cons c cs ih => rw [List.cons_append, byteLength, byteLength, ih, Nat.add_assoc]

theorem byteLength_toList (s : String) : byteLength s.toList = s.utf8ByteSize := by
  have hlist : ∀ cs : List Char, byteLength cs = (String.ofList cs).utf8ByteSize := by
    intro cs
    induction cs with
    | nil => rfl
    | cons c cs ih =>
        rw [byteLength, ih, ← List.singleton_append, String.ofList_append,
          String.utf8ByteSize_append, ← String.singleton_eq_ofList, String.utf8ByteSize_singleton]
  rw [hlist, String.ofList_toList]

theorem Span.saturate_of_le {start stop : Nat} (hstart : start ≤ maxOffset)
    (hstop : stop ≤ maxOffset) : saturate start stop = ⟨start, stop⟩ := by
  rw [saturate, Nat.min_eq_left hstart, Nat.min_eq_left hstop]

/-! ## One piece more -/

/-- The reading of a text behind tokens that were read before. -/
def TokenList.behind (done : List Token) (ts : TokenList) : TokenList :=
  { ts with tokens := done ++ ts.tokens }

theorem TokenList.map_behind (done : List Token) (t : Token) (result : Except LexError TokenList) :
    (result.map (behind [t])).map (behind done.reverse) =
      result.map (behind (t :: done).reverse) := by
  cases result with
  | ok ts => simp [Except.map, behind]
  | error e => rfl

section

variable {offset : Nat} {names : Interner} {c : Char} {cs : List Char}

/-- A piece that is a gap joins the gap in front of the first token. -/
theorem Tiling.cut_append {rest before : List Char} {tokens : List Token} {names' : Interner}
    (hshape : (cut c cs).shape = .gap) (hrest : (cut c cs).rest = before ++ rest)
    (h : Tiling rest (offset + byteLength (cut c cs).text) names before tokens names') :
    Tiling rest offset names ((cut c cs).text ++ before) tokens names' := by
  cases h with
  | gap hgap => exact .gap (hgap.cut_append hshape hrest)
  | token hgap hlexeme hlongest hsign hstart hstop h =>
      rw [List.append_assoc, List.append_assoc] at hrest
      rw [← List.append_assoc]
      refine .token (hgap.cut_append hshape hrest) hlexeme hlongest hsign ?_ hstop h
      rw [hstart, byteLength_append, Nat.add_assoc]

theorem Accounts.gap {result : Except LexError TokenList} (hshape : (cut c cs).shape = .gap)
    (h : Accounts (offset + byteLength (cut c cs).text) names (cut c cs).rest result) :
    Accounts offset names (c :: cs) result := by
  have hwhole := cut_text_append_rest c cs
  cases result with
  | ok ts =>
      obtain ⟨htiling, hstop⟩ := h
      rw [← hwhole]
      refine ⟨htiling.cut_append hshape (List.append_nil _).symm, ?_⟩
      rw [hstop, byteLength_append, Nat.add_assoc]
  | error e =>
      obtain ⟨before, text, rest, tokens, names', hrest, htiling, hspan, hcause⟩ := h
      refine ⟨(cut c cs).text ++ before, text, rest, tokens, names', ?_,
        htiling.cut_append hshape hrest, ?_, hcause⟩
      · rw [← hwhole, hrest, List.append_assoc]
      · rw [hspan, byteLength_append, Nat.add_assoc]

/-- A piece that is a lexeme becomes the first token. -/
theorem Accounts.token {result : Except LexError TokenList} {sign : Sign} {names' : Interner}
    (hsign : Denotes names (cut c cs).shape (cut c cs).text sign names')
    (h : Accounts (offset + byteLength (cut c cs).text) names' (cut c cs).rest result) :
    Accounts offset names (c :: cs) (result.map (TokenList.behind [⟨sign,
      String.ofList (cut c cs).text, ⟨offset, offset + byteLength (cut c cs).text⟩⟩])) := by
  have hwhole := cut_text_append_rest c cs
  obtain ⟨hlexeme, hlongest⟩ := cut_isLongest hsign.shape_ne.1 hsign.shape_ne.2
  cases result with
  | ok ts =>
      obtain ⟨htiling, hstop⟩ := h
      rw [← hwhole]
      refine ⟨?_, ?_⟩
      · refine .token .nil hlexeme ?_ hsign rfl rfl htiling
        rwa [List.append_nil]
      · rw [TokenList.behind, hstop, byteLength_append, Nat.add_assoc]
  | error e =>
      obtain ⟨before, text, rest, tokens, names'', hrest, htiling, hspan, hcause⟩ := h
      refine ⟨(cut c cs).text ++ before, text, rest, _, names'', ?_,
        .token .nil hlexeme ?_ hsign rfl rfl htiling, ?_, hcause⟩
      · rw [← hwhole, hrest, List.append_assoc]
      · rwa [← hrest]
      · rw [hspan, byteLength_append, Nat.add_assoc]

theorem Accounts.error {e : LexError} (hcause : e.cause.Arises (cut c cs).text (cut c cs).rest)
    (hspan : e.span = ⟨offset, offset + byteLength (cut c cs).text⟩) :
    Accounts offset names (c :: cs) (.error e) :=
  ⟨[], (cut c cs).text, (cut c cs).rest, [], names, (cut_text_append_rest c cs).symm, .gap .nil,
    hspan, hcause⟩

end

/-! ## Whole texts -/

theorem byteLength_cut (c : Char) (cs : List Char) :
    byteLength (cut c cs).text + byteLength (cut c cs).rest = byteLength (c :: cs) := by
  rw [← byteLength_append, cut_text_append_rest]

section

variable {offset : Nat} {names : Interner} {done : List Token} {c : Char} {cs : List Char}

theorem saturate_cut (hsize : offset + byteLength (c :: cs) ≤ Span.maxOffset) :
    Span.saturate offset (offset + byteLength (cut c cs).text) =
      ⟨offset, offset + byteLength (cut c cs).text⟩ := by
  have hcut := byteLength_cut c cs
  exact Span.saturate_of_le (by omega) (by omega)

/-- The token that was read last stands in front of what is read behind it. -/
theorem Accounts.exists_of_token {outcome : Except LexError TokenList} {sign : Sign}
    {names' : Interner} (hsize : offset + byteLength (c :: cs) ≤ Span.maxOffset)
    (hsign : Denotes names (cut c cs).shape (cut c cs).text sign names')
    (h : offset + byteLength (cut c cs).text + byteLength (cut c cs).rest ≤ Span.maxOffset →
      ∃ result, Accounts (offset + byteLength (cut c cs).text) names' (cut c cs).rest result ∧
        outcome = result.map (TokenList.behind (⟨sign, String.ofList (cut c cs).text,
          Span.saturate offset (offset + byteLength (cut c cs).text)⟩ :: done).reverse)) :
    ∃ result, Accounts offset names (c :: cs) result ∧
      outcome = result.map (TokenList.behind done.reverse) := by
  rw [Nat.add_assoc, byteLength_cut] at h
  obtain ⟨result, haccounts, houtcome⟩ := h hsize
  rw [saturate_cut hsize, ← TokenList.map_behind] at houtcome
  exact ⟨_, haccounts.token hsign, houtcome⟩

end

/-- Reading a text whose bytes can be counted accounts for all of it. -/
theorem scan_accounts (offset : Nat) (names : Interner) (done : List Token) (cs : List Char)
    (hsize : offset + byteLength cs ≤ Span.maxOffset) :
    ∃ result, Accounts offset names cs result ∧
      scan offset names done cs = result.map (TokenList.behind done.reverse) := by
  -- The cases are those of the scanner: the end, a gap, a number that fits and one that does not, a
  -- reserved word, a name, a sign, and a character that starts nothing.
  fun_induction scan offset names done cs with
  | case1 offset names done =>
      have hspan : Span.saturate offset offset = ⟨offset, offset⟩ :=
        Span.saturate_of_le hsize hsize
      refine ⟨.ok ⟨[], ⟨offset, offset⟩, names⟩, ⟨.gap .nil, rfl⟩, ?_⟩
      simp [Except.map, TokenList.behind, hspan]
  | case2 offset names done c cs piece stop hshape ih =>
      rw [Nat.add_assoc, byteLength_cut] at ih
      obtain ⟨result, haccounts, hscan⟩ := ih hsize
      exact ⟨result, haccounts.gap hshape, hscan⟩
  | case3 offset names done c cs piece stop span text hshape value hvalue ih =>
      have hsign : Denotes names piece.shape piece.text (.int value) names := by
        rw [hshape]
        exact .number hvalue
      exact Accounts.exists_of_token hsize hsign ih
  | case4 offset names done c cs piece stop span text hshape value hvalue =>
      have hne : piece.shape ≠ .gap ∧ piece.shape ≠ .invalid := by simp [hshape]
      obtain ⟨hlexeme, hlongest⟩ := cut_isLongest hne.1 hne.2
      refine ⟨_, .error (.integerOutOfRange ?_ hlongest (Nat.lt_of_not_le hvalue))
        (saturate_cut hsize), rfl⟩
      rwa [← hshape]
  | case5 offset names done c cs piece stop span text hshape sign hword ih =>
      have hsign : Denotes names piece.shape piece.text sign names := by
        rw [hshape]
        exact .reserved hword
      exact Accounts.exists_of_token hsize hsign ih
  | case6 offset names done c cs piece stop span text hshape hword name names' hintern ih =>
      have hsign : Denotes names piece.shape piece.text (.ident name) names' := by
        rw [hshape]
        exact .ident hword hintern
      exact Accounts.exists_of_token hsize hsign ih
  | case7 offset names done c cs piece stop span text sign hshape ih =>
      have hsign : Denotes names piece.shape piece.text sign names := by
        rw [hshape]
        exact .sign
      exact Accounts.exists_of_token hsize hsign ih
  | case8 offset names done c cs piece stop span hshape =>
      obtain ⟨htext, hgap, hlexeme⟩ := cut_invalid hshape
      have hrest : piece.rest = cs := by
        have hwhole := cut_text_append_rest c cs
        rw [htext] at hwhole
        exact (List.cons.inj hwhole).2
      refine ⟨_, .error ?_ (saturate_cut hsize), rfl⟩
      rw [htext, hrest]
      exact .unexpectedChar hgap fun shape text => hlexeme

theorem TokenList.ofSourceWith_accounts (names : Interner) (source : String)
    (hsize : source.utf8ByteSize ≤ Span.maxOffset) :
    Accounts 0 names source.toList (TokenList.ofSourceWith names source) := by
  rw [← byteLength_toList] at hsize
  obtain ⟨result, haccounts, hscan⟩ := scan_accounts 0 names [] source.toList (by omega)
  have hresult : result.map (TokenList.behind [].reverse) = result := by cases result <;> rfl
  rw [TokenList.ofSourceWith, hscan, hresult]
  exact haccounts

/-- The tokens of a source of less than 2³² bytes partition it: the source is gap, token, gap, …,
token, gap in the order of the spans, and its end is behind them.  If there are none, the source is
partitioned up to the place that is reported, and what stands there is no gap and no token or a
number that is too large. -/
theorem ofSourceWith_partitions (names : Interner) (source : String)
    (hsize : source.utf8ByteSize ≤ Span.maxOffset) :
    match TokenList.ofSourceWith names source with
    | .ok ts =>
      Tiling [] 0 names source.toList ts.tokens ts.names ∧
        ts.stop = ⟨source.utf8ByteSize, source.utf8ByteSize⟩
    | .error e =>
      ∃ (before text rest : List Char) (tokens : List Token) (names' : Interner),
        source.toList = before ++ (text ++ rest) ∧
        Tiling (text ++ rest) 0 names before tokens names' ∧
        e.span = ⟨byteLength before, byteLength before + byteLength text⟩ ∧
        e.cause.Arises text rest := by
  have haccounts := TokenList.ofSourceWith_accounts names source hsize
  rw [← byteLength_toList]
  generalize TokenList.ofSourceWith names source = result at haccounts ⊢
  cases result with
  | ok ts => simpa [Accounts] using haccounts
  | error e => simpa [Accounts] using haccounts

/-- The two characters of `<=` are one token and those of `//` none, and a character of two bytes in
a comment counts as two; a lone `!` is reported behind the same tokens. -/
theorem ofSourceWith_partitions_comparison :
    let tokens : List Token :=
      [⟨.ident ⟨1, "n"⟩, "n", ⟨0, 1⟩⟩, ⟨.operator .le, "<=", ⟨1, 3⟩⟩, ⟨.int 12, "12", ⟨3, 5⟩⟩]
    (TokenList.ofSourceWith .empty "n<=12 //é" = .ok ⟨tokens, ⟨10, 10⟩, ⟨#["", "n"]⟩⟩ ∧
      Tiling [] 0 .empty "n<=12 //é".toList tokens ⟨#["", "n"]⟩) ∧
    (TokenList.ofSourceWith .empty "n<=12!" = .error ⟨.unexpectedChar '!', ⟨5, 6⟩⟩ ∧
      ∃ (before text rest : List Char) (tokens : List Token) (names' : Interner),
        "n<=12!".toList = before ++ (text ++ rest) ∧
        Tiling (text ++ rest) 0 .empty before tokens names' ∧
        (⟨5, 6⟩ : Span) = ⟨byteLength before, byteLength before + byteLength text⟩ ∧
        (LexCause.unexpectedChar '!').Arises text rest) := by
  intro tokens
  have hread : TokenList.ofSourceWith .empty "n<=12 //é" =
      .ok ⟨tokens, ⟨10, 10⟩, ⟨#["", "n"]⟩⟩ := by with_unfolding_all rfl
  have hfail : TokenList.ofSourceWith .empty "n<=12!" = .error ⟨.unexpectedChar '!', ⟨5, 6⟩⟩ := by
    with_unfolding_all rfl
  have hpartition := ofSourceWith_partitions .empty "n<=12 //é" (by decide)
  have hpartition' := ofSourceWith_partitions .empty "n<=12!" (by decide)
  rw [hread] at hpartition
  rw [hfail] at hpartition'
  exact ⟨⟨hread, hpartition.1⟩, hfail, hpartition'⟩

end PolicyEval
