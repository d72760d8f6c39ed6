import PolicyEval.Proofs.Syntax.Words

/-!
# Reading printed texts token by token

A printed text is put together from words, numbers, signs and blanks.  Reading it gives back what it
was put together from, because no two neighbours run together: behind a word, a number or an
operator there is always a blank, a parenthesis, a comma, a semicolon or the end, and the other
signs end where they end whatever follows.

* `Lexes` — reading a text in front of another one gives certain signs.
* `Lexes.append` — texts one after the other.
* `IsBoundary` — texts that do not run together with what is in front of them.
* `lexes_word`, `lexes_number`, `lexes_operator` — the parts of printed texts.
-/

namespace PolicyEval

/-- Reading `text`, if `rest` follows, gives the signs `signs` and changes no names. -/
def Lexes (names : Interner) (text : List Char) (signs : List Sign) (rest : List Char) : Prop :=
  ∀ offset done, ∃ (offset' : Nat) (ts : List Token), ts.map Token.sign = signs ∧
    scan offset names done (text ++ rest) = scan offset' names (ts.reverse ++ done) rest

/-- A text that starts with a character that is part of no word, number or operator, or is empty. -/
def IsBoundary : List Char → Prop
  | [] => True
  | c :: _ => c ∈ [' ', '(', ')', ',', ';']

@[simp] theorem isBoundary_cons (c : Char) (cs : List Char) :
    IsBoundary (c :: cs) ↔ c ∈ [' ', '(', ')', ',', ';'] :=
  Iff.rfl

section

variable {names : Interner} {rest : List Char}

theorem Lexes.nil : Lexes names [] [] rest := fun offset _ => ⟨offset, [], rfl, rfl⟩

theorem Lexes.congr {text text' : List Char} {signs signs' : List Sign}
    (h : Lexes names text signs rest) (htext : text' = text) (hsigns : signs' = signs) :
    Lexes names text' signs' rest := by
  rw [htext, hsigns]
  exact h

theorem Lexes.append {text text' : List Char} {signs signs' : List Sign}
    (h : Lexes names text signs (text' ++ rest)) (h' : Lexes names text' signs' rest) :
    Lexes names (text ++ text') (signs ++ signs') rest := by
  intro offset done
  obtain ⟨offset₁, ts, hts, hscan⟩ := h offset done
  obtain ⟨offset₂, ts', hts', hscan'⟩ := h' offset₁ (ts.reverse ++ done)
  refine ⟨offset₂, ts ++ ts', by rw [List.map_append, hts, hts'], ?_⟩
  rw [List.append_assoc, hscan, hscan', List.reverse_append, List.append_assoc]

/-! ## Pieces -/

/-- A piece that is one token. -/
theorem Lexes.of_scan {text : List Char} {sign : Sign}
    (h : ∀ offset done, scan offset names done (text ++ rest) =
      scan (offset + byteLength text) names
        (⟨sign, String.ofList text, Span.saturate offset (offset + byteLength text)⟩ :: done) rest) :
    Lexes names text [sign] rest :=
  fun offset done => ⟨offset + byteLength text, [_], rfl, h offset done⟩

theorem lexes_of_cut_sign {c : Char} {cs : List Char} {sign : Sign}
    (h : cut c (cs ++ rest) = ⟨.sign sign, c :: cs, rest⟩) : Lexes names (c :: cs) [sign] rest := by
  refine .of_scan fun offset done => ?_
  rw [List.cons_append, scan]
  simp only [h]

theorem runOf_append (shape : Shape) (before : List Char) {part : Char → Bool} {cs : List Char}
    (hall : cs.all part = true) (hstop : ∀ c ∈ rest.head?, part c = false) :
    runOf shape before part (cs ++ rest) = ⟨shape, before ++ cs, rest⟩ := by
  have hrest : rest.takeWhile part = [] ∧ rest.dropWhile part = rest := by
    cases rest with
    | nil => exact ⟨rfl, rfl⟩
    | cons c rest =>
        have hc := hstop c rfl
        simp [hc]
  have hall' : ∀ c ∈ cs, part c = true := List.all_eq_true.1 hall
  rw [runOf, List.takeWhile_append_of_pos hall', List.dropWhile_append_of_pos hall', hrest.1,
    hrest.2, List.append_nil]

theorem IsBoundary.stop (h : IsBoundary rest) {part : Char → Bool}
    (hpart : [' ', '(', ')', ',', ';'].all (fun c => !part c) = true) :
    ∀ c ∈ rest.head?, part c = false := by
  cases rest with
  | nil => exact nofun
  | cons d rest =>
      rintro c ⟨⟩
      simpa using List.all_eq_true.1 hpart d h

theorem not_isBlank_of_isWordStart {c : Char} (h : isWordStart c = true) : isBlank c = false := by
  refine Bool.eq_false_iff.2 fun hblank => ?_
  simp only [isBlank, Bool.or_eq_true, beq_iff_eq] at hblank
  rcases hblank with (((rfl | rfl) | rfl) | rfl) | rfl <;> exact absurd h (by decide)

theorem not_isBlank_of_isDigit {c : Char} (h : c.isDigit = true) : isBlank c = false := by
  refine Bool.eq_false_iff.2 fun hblank => ?_
  simp only [isBlank, Bool.or_eq_true, beq_iff_eq] at hblank
  rcases hblank with (((rfl | rfl) | rfl) | rfl) | rfl <;> exact absurd h (by decide)

theorem not_isDigit_of_isWordStart {c : Char} (h : isWordStart c = true) : c.isDigit = false := by
  simp only [isWordStart, Bool.or_eq_true, beq_iff_eq] at h
  rcases h with (h | rfl) | rfl
  · delta Char.isAlpha Char.isUpper Char.isLower at h
    simp only [Bool.or_eq_true, Bool.and_eq_true, decide_eq_true_eq] at h
    simp only [Char.isDigit, Bool.and_eq_false_iff, decide_eq_false_iff_not]
    refine .inr fun hle => ?_
    rcases h with h | h
    · exact absurd (UInt32.le_trans h.1 hle) (by decide)
    · exact absurd (UInt32.le_trans h.1 hle) (by decide)
  · rfl
  · rfl

/-- A word is cut where it ends. -/
theorem cut_of_word {c : Char} {cs : List Char} (hstart : isWordStart c = true)
    (hpart : cs.all isWordPart = true) (hrest : IsBoundary rest) :
    cut c (cs ++ rest) = ⟨.word, c :: cs, rest⟩ := by
  unfold cut
  rw [not_isBlank_of_isWordStart hstart, not_isDigit_of_isWordStart hstart, hstart]
  exact runOf_append .word [c] hpart (hrest.stop (by decide))

/-- A word that stands for a sign. -/
theorem lexes_word {w : String} {c : Char} {cs : List Char} {sign : Sign}
    (htext : w.toList = c :: cs) (hsign : Sign.ofWord? w = some sign)
    (hstart : isWordStart c = true) (hpart : cs.all isWordPart = true) (hrest : IsBoundary rest) :
    Lexes names w.toList [sign] rest := by
  have hw : String.ofList (c :: cs) = w := by rw [← htext, String.ofList_toList]
  rw [htext]
  refine .of_scan fun offset done => ?_
  rw [List.cons_append, scan]
  simp only [cut_of_word hstart hpart hrest, hw, hsign]

/-- An identifier of the table. -/
theorem lexes_name {name : Name} (hname : names.Knows name) (hrest : IsBoundary rest) :
    Lexes names name.text.toList [.ident name] rest := by
  obtain ⟨hidentifier, hget⟩ := hname
  unfold isIdentifier at hidentifier
  cases htext : name.text.toList with
  | nil => simp [htext] at hidentifier
  | cons c cs =>
      simp only [htext, Bool.and_eq_true, Option.isNone_iff_eq_none] at hidentifier
      obtain ⟨hword, hstart, hpart⟩ := hidentifier
      have hw : String.ofList (c :: cs) = name.text := by rw [← htext, String.ofList_toList]
      refine .of_scan fun offset done => ?_
      rw [List.cons_append, scan]
      simp only [cut_of_word hstart hpart hrest, hw, hword, Interner.intern_of_get? hget]

/-- A number within bounds. -/
theorem lexes_number {n : Nat} (hn : n ≤ maxInteger) (hrest : IsBoundary rest) :
    Lexes names (toString n).toList [.int n] rest := by
  have hdigits : (toString n).toList = Nat.toDigits 10 n := Nat.toList_repr
  have hall : ∀ c ∈ Nat.toDigits 10 n, c.isDigit = true :=
    fun c hc => Nat.isDigit_of_mem_toDigits (by decide) (by decide) hc
  have hvalue : decimalValue (Nat.toDigits 10 n) = n := Nat.ofDigitChars_ten_toDigits
  rw [hdigits]
  cases hcs : Nat.toDigits 10 n with
  | nil => exact absurd hcs Nat.toDigits_ne_nil
  | cons c cs =>
      rw [hcs, List.forall_mem_cons] at hall
      rw [hcs] at hvalue
      have hcut : cut c (cs ++ rest) = ⟨.number, c :: cs, rest⟩ := by
        unfold cut
        rw [not_isBlank_of_isDigit hall.1, hall.1]
        exact runOf_append .number [c] (List.all_eq_true.2 hall.2) (hrest.stop (by decide))
      refine .of_scan fun offset done => ?_
      rw [List.cons_append, scan]
      simp only [hcut, hvalue, hn, if_true]

/-- A blank and the blanks behind it are one piece. -/
theorem cut_of_isBlank {c : Char} (cs : List Char) (hblank : isBlank c = true) :
    cut c cs = runOf .gap [c] isBlank cs := by
  unfold cut
  rw [if_pos hblank]

/-- Blanks give no sign. -/
theorem lexes_isBlank {c : Char} (hblank : isBlank c = true) : Lexes names [c] [] rest := by
  intro offset done
  refine ⟨offset + c.utf8Size, [], rfl, ?_⟩
  rw [List.singleton_append, scan]
  simp only [cut_of_isBlank rest hblank, runOf]
  cases rest with
  | nil => rfl
  | cons d ds =>
      by_cases hnext : isBlank d = true
      · -- Further blanks belong to the same piece.
        rw [List.reverse_nil, List.nil_append, scan.eq_def _ _ _ (d :: ds)]
        simp only [cut_of_isBlank ds hnext, runOf, List.takeWhile_cons, List.dropWhile_cons, hnext,
          if_true]
        congr 1
        simp only [List.cons_append, List.nil_append, byteLength]
        omega
      · simp only [List.takeWhile_cons, List.dropWhile_cons, hnext, if_false, Bool.false_eq_true]
        rfl

theorem lexes_blank : Lexes names [' '] [] rest := lexes_isBlank rfl

/-- A binary operator, which is printed between blanks. -/
theorem lexes_operator (op : BinaryOp) :
    Lexes names op.symbol.toList [.operator op] (' ' :: rest) := by
  cases op <;> exact lexes_of_cut_sign rfl

/-- A unary operator is a sign that ends where it ends. -/
def UnaryOp.sign : UnaryOp → Sign
  | .pos => .operator .add
  | .neg => .operator .sub
  | .not => .tilde

theorem lexes_unaryOp (op : UnaryOp) : Lexes names op.symbol.toList [op.sign] rest := by
  cases op <;> exact lexes_of_cut_sign rfl

theorem lexes_openParen : Lexes names ['('] [.openParen] rest := lexes_of_cut_sign rfl

theorem lexes_closeParen : Lexes names [')'] [.closeParen] rest := lexes_of_cut_sign rfl

theorem lexes_comma : Lexes names [','] [.comma] rest := lexes_of_cut_sign rfl

theorem lexes_semicolon : Lexes names [';'] [.semicolon] rest := lexes_of_cut_sign rfl

theorem lexes_define : Lexes names [':', '='] [.define] rest := lexes_of_cut_sign rfl

theorem lexes_keyword (k : Keyword) (hrest : IsBoundary rest) :
    Lexes names k.text.toList [.keyword k] rest := by
  cases k <;> exact lexes_word rfl rfl rfl rfl hrest

theorem lexes_true (hrest : IsBoundary rest) : Lexes names "true".toList [.bool true] rest :=
  lexes_word rfl rfl rfl rfl hrest

theorem lexes_false (hrest : IsBoundary rest) : Lexes names "false".toList [.bool false] rest :=
  lexes_word rfl rfl rfl rfl hrest

theorem lexes_null (hrest : IsBoundary rest) : Lexes names "null".toList [.null] rest :=
  lexes_word rfl rfl rfl rfl hrest

theorem lexes_prim (p : Prim) (hrest : IsBoundary rest) :
    Lexes names p.name.toList [.prim p] rest := by
  cases p <;> exact lexes_word rfl rfl rfl rfl hrest

end

end PolicyEval
