import PolicyEval.Proofs.Syntax.Lexing

/-!
# Lexemes and gaps

The texts that are one token are numbers, words and signs.  Between them stand gaps: blanks, and
comments up to the end of their lines.  At most one lexeme of a source counts at each place, the
longest one that starts there, and none does where a gap starts.

Here this is said without a reader, and the pieces that a source is cut into are shown to be the
longest ones.

* `Lexeme` — the texts of tokens.
* `Gap` — the texts between tokens.
* `IsLongest` — the longest lexeme at its place.
* `cut_isLongest`, `cut_gap`, `cut_invalid` — what a piece says about its place.
-/

namespace PolicyEval

/-! ## The texts of tokens -/

/-- The signs that are written without letters and digits, behind their texts. -/
def signTable : List (List Char × Sign) :=
  BinaryOp.all.map (fun op => (op.symbol.toList, .operator op)) ++
    [(['~'], .tilde), ([':', '='], .define), (['('], .openParen), ([')'], .closeParen),
      ([','], .comma), ([';'], .semicolon)]

/-- The texts that are one token, by the shape of the token. -/
inductive Lexeme : Shape → List Char → Prop
  | number {text : List Char} (hne : text ≠ []) (hdigits : ∀ c ∈ text, c.isDigit = true) :
      Lexeme .number text
  | word {c : Char} {text : List Char} (hstart : isWordStart c = true)
      (hparts : ∀ d ∈ text, isWordPart d = true) : Lexeme .word (c :: text)
  | sign {text : List Char} {sign : Sign} (h : (text, sign) ∈ signTable) :
      Lexeme (.sign sign) text

/-- A text between tokens, in front of `rest`: blanks, and comments that go on to the end of their
lines. -/
inductive Gap (rest : List Char) : List Char → Prop
  | nil : Gap rest []
  | blank {c : Char} {gap : List Char} (hblank : isBlank c = true) (h : Gap rest gap) :
      Gap rest (c :: gap)
  | comment {text gap : List Char} (htext : '\n' ∉ text)
      (hend : ∀ c ∈ (gap ++ rest).head?, c = '\n') (h : Gap rest gap) :
      Gap rest ('/' :: '/' :: (text ++ gap))

/-- The text starts with a blank or a comment. -/
def StartsGap (cs : List Char) : Prop :=
  (∃ c ∈ cs.head?, isBlank c = true) ∨ ['/', '/'] <+: cs

/-- No gap starts where the text stands in front of `rest`, and no lexeme that starts there is
longer. -/
structure IsLongest (text rest : List Char) : Prop where
  no_gap : ¬StartsGap (text ++ rest)
  length_le : ∀ {shape longer}, Lexeme shape longer → longer <+: text ++ rest →
    longer.length ≤ text.length

/-! ## First characters -/

/-- A character with which neither blanks nor numbers nor words start. -/
def isSignStart (c : Char) : Bool := !isBlank c && !c.isDigit && !isWordStart c

theorem isSignStart_iff (c : Char) :
    isSignStart c = true ↔ isBlank c = false ∧ c.isDigit = false ∧ isWordStart c = false := by
  simp [isSignStart, and_assoc]

/-- A sign is one character, or two of which the second one is `=`. -/
theorem exists_of_mem_signTable {text : List Char} {sign : Sign} (h : (text, sign) ∈ signTable) :
    ∃ c, isSignStart c = true ∧ (text = [c] ∨ text = [c, '=']) := by
  have hall : signTable.all (fun entry => entry.1.any fun c =>
      isSignStart c && (entry.1 == [c] || entry.1 == [c, '='])) = true := by decide
  obtain ⟨c, -, hc⟩ := List.any_eq_true.1 (List.all_eq_true.1 hall _ h)
  exact ⟨c, by simpa using hc⟩

/-- The first character of a lexeme says which shape it has. -/
theorem Lexeme.exists_cons {shape : Shape} {text : List Char} (h : Lexeme shape text) :
    ∃ c cs, text = c :: cs ∧
      ((shape = .number ∧ c.isDigit = true) ∨ (shape = .word ∧ isWordStart c = true) ∨
        ((∃ sign, shape = .sign sign) ∧ isSignStart c = true)) := by
  cases h with
  | @number text hne hdigits =>
      obtain ⟨c, cs, rfl⟩ := List.exists_cons_of_ne_nil hne
      exact ⟨c, cs, rfl, .inl ⟨rfl, hdigits c List.mem_cons_self⟩⟩
  | @word c text hstart _ => exact ⟨c, text, rfl, .inr (.inl ⟨rfl, hstart⟩)⟩
  | @sign text sign h =>
      obtain ⟨c, hc, rfl | rfl⟩ := exists_of_mem_signTable h
      · exact ⟨c, [], rfl, .inr (.inr ⟨⟨sign, rfl⟩, hc⟩)⟩
      · exact ⟨c, ['='], rfl, .inr (.inr ⟨⟨sign, rfl⟩, hc⟩)⟩

section

variable {shape : Shape} {c : Char} {longer cs : List Char}

/-- Behind a digit, only numbers start. -/
theorem Lexeme.forall_isDigit (h : Lexeme shape longer) (hfront : longer <+: c :: cs)
    (hc : c.isDigit = true) : ∀ d ∈ longer, d.isDigit = true := by
  obtain ⟨d, ds, rfl, hcase⟩ := h.exists_cons
  obtain rfl : d = c := (List.cons_prefix_cons.1 hfront).1
  rcases hcase with ⟨rfl, -⟩ | ⟨-, hword⟩ | ⟨-, hsign⟩
  · cases h with | number hne hdigits => exact hdigits
  · rw [not_isDigit_of_isWordStart hword] at hc
    cases hc
  · rw [((isSignStart_iff d).1 hsign).2.1] at hc
    cases hc

/-- Behind the first character of a word, only words start. -/
theorem Lexeme.forall_isWordPart (h : Lexeme shape longer) (hfront : longer <+: c :: cs)
    (hc : isWordStart c = true) : ∀ d ∈ longer, isWordPart d = true := by
  obtain ⟨d, ds, rfl, hcase⟩ := h.exists_cons
  obtain rfl : d = c := (List.cons_prefix_cons.1 hfront).1
  rcases hcase with ⟨-, hdigit⟩ | ⟨rfl, -⟩ | ⟨-, hsign⟩
  · rw [not_isDigit_of_isWordStart hc] at hdigit
    cases hdigit
  · cases h with
    | word hstart hparts =>
        have hhead : isWordPart d = true := by simp [isWordPart, hstart]
        exact List.forall_mem_cons.2 ⟨hhead, hparts⟩
  · rw [((isSignStart_iff d).1 hsign).2.2] at hc
    cases hc

/-- Behind any other character, only signs start. -/
theorem Lexeme.exists_mem_signTable (h : Lexeme shape longer) (hfront : longer <+: c :: cs)
    (hc : isSignStart c = true) :
    ∃ sign, (longer, sign) ∈ signTable ∧ (longer = [c] ∨ longer = [c, '=']) := by
  obtain ⟨hblank, hdigit', hword'⟩ := (isSignStart_iff c).1 hc
  obtain ⟨d, ds, rfl, hcase⟩ := h.exists_cons
  obtain rfl : d = c := (List.cons_prefix_cons.1 hfront).1
  rcases hcase with ⟨-, hdigit⟩ | ⟨-, hword⟩ | ⟨⟨sign, rfl⟩, -⟩
  · rw [hdigit'] at hdigit
    cases hdigit
  · rw [hword'] at hword
    cases hword
  · cases h with
    | sign hmem =>
        obtain ⟨b, -, hform⟩ := exists_of_mem_signTable hmem
        rcases hform with hform | hform
        · cases hform
          exact ⟨sign, hmem, .inl rfl⟩
        · cases hform
          exact ⟨sign, hmem, .inr rfl⟩

end

/-! ## Signs -/

theorem cutSign_mem_signTable {c : Char} {cs : List Char} {sign : Sign}
    (h : (cutSign c cs).shape = .sign sign) : ((cutSign c cs).text, sign) ∈ signTable := by
  revert h
  unfold cutSign
  split <;> intro h <;> cases h <;> simp [signTable, BinaryOp.all, BinaryOp.symbol]

/-- A piece that is not a gap, a number or a word is a sign or one character. -/
theorem cutSign_shape (c : Char) (cs : List Char) :
    (∃ sign, (cutSign c cs).shape = .sign sign) ∨
      (cutSign c cs).shape = .invalid ∧ (cutSign c cs).text = [c] := by
  unfold cutSign
  split <;> first | exact .inl ⟨_, rfl⟩ | exact .inr ⟨rfl, rfl⟩

/-- A sign of two characters is not cut into two. -/
theorem cutSign_of_two {c : Char} {sign : Sign} (rest : List Char)
    (h : ([c, '='], sign) ∈ signTable) :
    cutSign c ('=' :: rest) = ⟨.sign sign, [c, '='], rest⟩ := by
  simp [signTable, BinaryOp.all, BinaryOp.symbol] at h
  rcases h with ⟨rfl, rfl⟩ | ⟨rfl, rfl⟩ | ⟨rfl, rfl⟩ | ⟨rfl, rfl⟩ <;> rfl

theorem cutSign_of_one {c : Char} {sign : Sign} (cs : List Char) (h : ([c], sign) ∈ signTable) :
    (cutSign c cs).shape ≠ .invalid := by
  unfold cutSign
  split <;> intro hinvalid <;> cases hinvalid
  -- Only the last pattern is left, whose character is none of those in front of it.
  simp [signTable, BinaryOp.all, BinaryOp.symbol] at h
  grind

/-! ## Pieces -/

theorem startsGap_cons (c : Char) (cs : List Char) :
    StartsGap (c :: cs) ↔ isBlank c = true ∨ ['/', '/'] <+: c :: cs := by
  simp [StartsGap]

theorem not_startsGap {c : Char} (cs : List Char) (hblank : isBlank c = false) (hc : c ≠ '/') :
    ¬StartsGap (c :: cs) := by
  rw [startsGap_cons, hblank]
  rintro (h | hcomment)
  · cases h
  · exact hc (List.cons_prefix_cons.1 hcomment).1.symm

/-- The first character of a text, and the second one behind a `/`, say how it is cut. -/
theorem cut_cases (c : Char) (cs : List Char) :
    (isBlank c = true ∧ cut c cs = runOf .gap [c] isBlank cs) ∨
    (c.isDigit = true ∧ cut c cs = runOf .number [c] Char.isDigit cs) ∨
    (isWordStart c = true ∧ cut c cs = runOf .word [c] isWordPart cs) ∨
    (∃ rest, c :: cs = '/' :: '/' :: rest ∧
      cut c cs = runOf .gap ['/', '/'] isCommentPart rest) ∨
    (isSignStart c = true ∧ ¬StartsGap (c :: cs) ∧ cut c cs = cutSign c cs) := by
  unfold cut
  split
  · exact .inl ⟨‹_›, rfl⟩
  next hblank =>
  split
  · exact .inr (.inl ⟨‹_›, rfl⟩)
  next hdigit =>
  split
  · exact .inr (.inr (.inl ⟨‹_›, rfl⟩))
  next hword =>
  split
  · exact .inr (.inr (.inr (.inl ⟨_, rfl, rfl⟩)))
  next hcomment =>
  refine .inr (.inr (.inr (.inr ⟨?_, ?_, rfl⟩)))
  · simp [isSignStart_iff, hblank, hdigit, hword]
  · rw [startsGap_cons]
    rintro (h | ⟨rest, h⟩)
    · exact hblank h
    · cases h
      exact hcomment rest rfl rfl

/-- A run in front of a text is no longer than the longest one. -/
theorem length_le_takeWhile {part : Char → Bool} {longer cs : List Char} (h : longer <+: cs)
    (hall : ∀ c ∈ longer, part c = true) : longer.length ≤ (cs.takeWhile part).length := by
  obtain ⟨rest, rfl⟩ := h
  rw [List.takeWhile_append_of_pos hall, List.length_append]
  exact Nat.le_add_right _ _

/-- The piece at the start of a text is the longest lexeme there, unless it is a gap or there is
none. -/
theorem cut_isLongest {c : Char} {cs : List Char} (hgap : (cut c cs).shape ≠ .gap)
    (hinvalid : (cut c cs).shape ≠ .invalid) :
    Lexeme (cut c cs).shape (cut c cs).text ∧ IsLongest (cut c cs).text (cut c cs).rest := by
  have hwhole := cut_text_append_rest c cs
  -- Numbers and words go as far as their characters do; signs of two characters are tried first.
  rcases cut_cases c cs with ⟨-, hcut⟩ | ⟨hdigit, hcut⟩ | ⟨hword, hcut⟩ | ⟨rest, -, hcut⟩ |
    ⟨hsign, hno, hcut⟩
  · exact absurd (by rw [hcut]; rfl) hgap
  · have htext : (cut c cs).text = (c :: cs).takeWhile Char.isDigit := by
      rw [hcut, List.takeWhile_cons_of_pos hdigit]
      rfl
    refine ⟨?_, ?_, fun hlonger hfront => ?_⟩
    · rw [hcut]
      refine .number (by simp [runOf]) ?_
      exact List.forall_mem_cons.2 ⟨hdigit, List.all_eq_true.1 List.all_takeWhile⟩
    · rw [hwhole]
      refine not_startsGap cs (not_isBlank_of_isDigit hdigit) ?_
      rintro rfl
      exact absurd hdigit (by decide)
    · rw [hwhole] at hfront
      rw [htext]
      exact length_le_takeWhile hfront (hlonger.forall_isDigit hfront hdigit)
  · have htext : (cut c cs).text = (c :: cs).takeWhile isWordPart := by
      rw [hcut, List.takeWhile_cons_of_pos (by simp [isWordPart, hword])]
      rfl
    refine ⟨?_, ?_, fun hlonger hfront => ?_⟩
    · rw [hcut]
      exact .word hword (List.all_eq_true.1 List.all_takeWhile)
    · rw [hwhole]
      refine not_startsGap cs (not_isBlank_of_isWordStart hword) ?_
      rintro rfl
      exact absurd hword (by decide)
    · rw [hwhole] at hfront
      rw [htext]
      exact length_le_takeWhile hfront (hlonger.forall_isWordPart hfront hword)
  · exact absurd (by rw [hcut]; rfl) hgap
  · rw [hcut] at hinvalid hwhole ⊢
    obtain ⟨sign, hshape⟩ | ⟨hshape, -⟩ := cutSign_shape c cs
    · refine ⟨?_, ?_, fun hlonger hfront => ?_⟩
      · rw [hshape]
        exact .sign (cutSign_mem_signTable hshape)
      · rwa [hwhole]
      · rw [hwhole] at hfront
        obtain ⟨sign', hmem, rfl | rfl⟩ := hlonger.exists_mem_signTable hfront hsign
        · exact List.length_pos_iff.2 (cutSign_text_ne_nil c cs)
        · obtain ⟨rest, rfl⟩ := (List.cons_prefix_cons.1 hfront).2
          have htwo := congrArg (List.length ∘ Piece.text) (cutSign_of_two rest hmem)
          exact Nat.le_of_eq htwo.symm
    · exact absurd hshape hinvalid

/-- A piece that is invalid is one character, with which neither a gap nor a lexeme starts. -/
theorem cut_invalid {c : Char} {cs : List Char} (h : (cut c cs).shape = .invalid) :
    (cut c cs).text = [c] ∧ ¬StartsGap (c :: cs) ∧
      ∀ {shape text}, Lexeme shape text → ¬text <+: c :: cs := by
  rcases cut_cases c cs with ⟨-, hcut⟩ | ⟨-, hcut⟩ | ⟨-, hcut⟩ | ⟨rest, -, hcut⟩ |
    ⟨hsign, hno, hcut⟩
  · rw [hcut] at h; cases h
  · rw [hcut] at h; cases h
  · rw [hcut] at h; cases h
  · rw [hcut] at h; cases h
  · rw [hcut] at h ⊢
    obtain ⟨sign, hshape⟩ | ⟨-, htext⟩ := cutSign_shape c cs
    · rw [hshape] at h
      cases h
    · refine ⟨htext, hno, fun hlexeme hfront => ?_⟩
      obtain ⟨sign, hmem, rfl | rfl⟩ := hlexeme.exists_mem_signTable hfront hsign
      · exact cutSign_of_one cs hmem h
      · obtain ⟨rest, rfl⟩ := (List.cons_prefix_cons.1 hfront).2
        rw [List.singleton_append, cutSign_of_two rest hmem] at h
        cases h

/-- Blanks in front of a gap join it. -/
theorem Gap.blanks {rest gap blanks : List Char} (hall : ∀ c ∈ blanks, isBlank c = true)
    (h : Gap rest gap) : Gap rest (blanks ++ gap) := by
  induction blanks with
  | nil => exact h
  | cons c blanks ih =>
      obtain ⟨hc, hblanks⟩ := List.forall_mem_cons.1 hall
      exact .blank hc (ih hblanks)

/-- A piece that is a gap joins the gap behind it. -/
theorem Gap.cut_append {c : Char} {cs gap rest : List Char} (hshape : (cut c cs).shape = .gap)
    (hrest : (cut c cs).rest = gap ++ rest) (h : Gap rest gap) :
    Gap rest ((cut c cs).text ++ gap) := by
  rcases cut_cases c cs with ⟨hblank, hcut⟩ | ⟨-, hcut⟩ | ⟨-, hcut⟩ | ⟨line, -, hcut⟩ |
    ⟨-, -, hcut⟩
  · rw [hcut]
    refine .blanks ?_ h
    exact List.forall_mem_cons.2 ⟨hblank, List.all_eq_true.1 List.all_takeWhile⟩
  · rw [hcut] at hshape; cases hshape
  · rw [hcut] at hshape; cases hshape
  · rw [hcut] at hrest ⊢
    refine .comment ?_ ?_ h
    · intro hmem
      exact absurd (List.all_eq_true.1 List.all_takeWhile _ hmem) (by decide)
    · intro d hd
      have hstop := List.head?_dropWhile_not isCommentPart line
      rw [show line.dropWhile isCommentPart = gap ++ rest from hrest, Option.mem_def.1 hd] at hstop
      simpa [isCommentPart] using hstop
  · rw [hcut] at hshape
    obtain ⟨sign, h'⟩ | ⟨h', -⟩ := cutSign_shape c cs <;> rw [h'] at hshape <;> cases hshape

end PolicyEval
