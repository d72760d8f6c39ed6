import PolicyEval.Proofs.Render.Listing

/-!
# Texts that can be read in one way only

A datum without closures can be told from its text.  Integers, truth values and primitives are
written as words without blanks and parentheses, no two of them as the same word, and a word ends
where a blank or a parenthesis stands or the text ends.  So the text of a datum in front of other
text tells both the datum and where its text ends.

* `Datum.All` — all leaves of a datum have a property.
* `Datum.text` — the text of a datum that is seen in full.
* `Datum.text_append_inj` — what stands in front of a boundary is the text of one datum only.
-/

namespace PolicyEval

/-! ## Words -/

/-- Characters that separate words. -/
def isDelimiter (c : Char) : Bool := c == ' ' || c == '(' || c == ')'

/-- A text at which a word ends: it is empty or starts with a delimiter. -/
def EndsWord (rest : List Char) : Prop := ∀ c ∈ rest.head?, isDelimiter c = true

/-- A word is told from what follows it. -/
theorem word_append_inj {word word' rest rest' : List Char}
    (hword : ∀ c ∈ word, isDelimiter c = false) (hword' : ∀ c ∈ word', isDelimiter c = false)
    (hrest : EndsWord rest) (hrest' : EndsWord rest') (h : word ++ rest = word' ++ rest') :
    word = word' ∧ rest = rest' := by
  induction word generalizing word' with
  | nil =>
      cases word' with
      | nil => exact ⟨rfl, h⟩
      | cons c word' =>
          have hstart : isDelimiter c = true := hrest c (by rw [List.nil_append] at h; simp [h])
          simp [hword' c List.mem_cons_self] at hstart
  | cons c word ih =>
      cases word' with
      | nil =>
          have hstart : isDelimiter c = true := hrest' c (by rw [List.nil_append] at h; simp [← h])
          simp [hword c List.mem_cons_self] at hstart
      | cons c' word' =>
          rw [List.cons_append, List.cons_append, List.cons.injEq] at h
          obtain ⟨rfl, h⟩ := h
          obtain ⟨rfl, rfl⟩ := ih (fun d hd => hword d (List.mem_cons_of_mem c hd))
            (fun d hd => hword' d (List.mem_cons_of_mem c hd)) h
          exact ⟨rfl, rfl⟩

/-! ## Leaves -/

/-- The leaf is not a closure. -/
def Leaf.IsPlain : Leaf → Prop
  | closure _ => False
  | int _ | bool _ | prim _ => True

theorem toList_toString_ofNat (m : Nat) :
    (toString (Int.ofNat m)).toList = Nat.toDigits 10 m := Nat.toList_repr

theorem toList_toString_negSucc (m : Nat) :
    (toString (Int.negSucc m)).toList = '-' :: Nat.toDigits 10 (m + 1) := by
  have htext : toString (Int.negSucc m) = "-" ++ toString (m + 1) := rfl
  rw [htext, String.toList_append]
  exact congrArg ('-' :: ·) Nat.toList_repr

theorem isDigit_of_mem_toDigits {m : Nat} {c : Char} (h : c ∈ Nat.toDigits 10 m) :
    c.isDigit = true :=
  Nat.isDigit_of_mem_toDigits (by decide) (by decide) h

theorem toDigits_injective {m n : Nat} (h : Nat.toDigits 10 m = Nat.toDigits 10 n) : m = n := by
  rw [← @Nat.ofDigitChars_ten_toDigits m, h, Nat.ofDigitChars_ten_toDigits]

/-- Characters with which the text of an integer starts. -/
def startsInt (c : Char) : Bool := c == '-' || c.isDigit

/-- An integer is written with a sign or a digit in front. -/
theorem exists_cons_toString_int (n : Int) :
    ∃ c rest, (toString n).toList = c :: rest ∧ startsInt c = true ∧
      ∀ d ∈ rest, d.isDigit = true := by
  cases n with
  | ofNat m =>
      rw [toList_toString_ofNat]
      cases hdigits : Nat.toDigits 10 m with
      | nil => exact absurd hdigits Nat.toDigits_ne_nil
      | cons c rest =>
          have hall : ∀ d ∈ c :: rest, d.isDigit = true :=
            fun d hd => isDigit_of_mem_toDigits (hdigits ▸ hd)
          exact ⟨c, rest, rfl, by simp [startsInt, hall c List.mem_cons_self],
            fun d hd => hall d (List.mem_cons_of_mem c hd)⟩
  | negSucc m =>
      rw [toList_toString_negSucc]
      exact ⟨'-', _, rfl, rfl, fun d hd => isDigit_of_mem_toDigits hd⟩

/-- No two integers have one text. -/
theorem toString_int_injective {m n : Int} (h : toString m = toString n) : m = n := by
  have hchars := congrArg String.toList h
  have hsign : ∀ {k l : Nat}, Nat.toDigits 10 k ≠ '-' :: Nat.toDigits 10 l := by
    intro k l heq
    have hdigit := isDigit_of_mem_toDigits (m := k) (heq ▸ List.mem_cons_self)
    exact absurd hdigit (by decide)
  cases m with
  | ofNat k =>
      cases n with
      | ofNat l =>
          rw [toList_toString_ofNat, toList_toString_ofNat] at hchars
          rw [toDigits_injective hchars]
      | negSucc l =>
          rw [toList_toString_ofNat, toList_toString_negSucc] at hchars
          exact absurd hchars hsign
  | negSucc k =>
      cases n with
      | ofNat l =>
          rw [toList_toString_ofNat, toList_toString_negSucc] at hchars
          exact absurd hchars.symm hsign
      | negSucc l =>
          rw [toList_toString_negSucc, toList_toString_negSucc, List.cons.injEq] at hchars
          rw [Nat.succ.inj (toDigits_injective hchars.2)]

theorem not_isDelimiter_of_isDigit {c : Char} (h : c.isDigit = true) : isDelimiter c = false := by
  cases hdelimiter : isDelimiter c with
  | false => rfl
  | true =>
      simp only [isDelimiter, Bool.or_eq_true, beq_iff_eq] at hdelimiter
      rcases hdelimiter with (rfl | rfl) | rfl <;> exact absurd h (by decide)

namespace Leaf

/-- Truth values and primitives. -/
def IsNamed : Leaf → Prop
  | bool _ | prim _ => True
  | int _ | closure _ => False

/-- Truth values and primitives are written as words that do not start like integers. -/
theorem IsNamed.text_eq {l : Leaf} (h : l.IsNamed) :
    ∃ c rest, l.text.toList = c :: rest ∧ startsInt c = false ∧
      ∀ d ∈ c :: rest, isDelimiter d = false := by
  have hword : l.text.toList.head?.any (fun c => !startsInt c) = true ∧
      l.text.toList.all (fun c => !isDelimiter c) = true := by
    cases l with
    | int | closure => exact h.elim
    | bool b => cases b <;> decide
    | prim p => cases p <;> decide
  cases htext : l.text.toList with
  | nil => simp [htext] at hword
  | cons c rest =>
      rw [htext, List.all_eq_true] at hword
      exact ⟨c, rest, rfl, by simpa using hword.1, fun d hd => by simpa using hword.2 d hd⟩

/-- A leaf that is not a closure is written as a word. -/
theorem IsPlain.text_eq {l : Leaf} (h : l.IsPlain) :
    ∃ c rest, l.text.toList = c :: rest ∧ ∀ d ∈ c :: rest, isDelimiter d = false := by
  cases l with
  | closure => exact h.elim
  | bool b =>
      obtain ⟨c, rest, htext, -, hword⟩ := IsNamed.text_eq (l := .bool b) trivial
      exact ⟨c, rest, htext, hword⟩
  | prim p =>
      obtain ⟨c, rest, htext, -, hword⟩ := IsNamed.text_eq (l := .prim p) trivial
      exact ⟨c, rest, htext, hword⟩
  | int n =>
      obtain ⟨c, rest, htext, hc, hrest⟩ := exists_cons_toString_int n
      refine ⟨c, rest, htext, List.forall_mem_cons.2 ⟨?_, ?_⟩⟩
      · simp only [startsInt, Bool.or_eq_true, beq_iff_eq] at hc
        rcases hc with rfl | hc
        · decide
        · exact not_isDelimiter_of_isDigit hc
      · exact fun d hd => not_isDelimiter_of_isDigit (hrest d hd)

/-- No truth value or primitive is written like an integer. -/
theorem IsNamed.text_ne {l : Leaf} (h : l.IsNamed) (n : Int) : l.text ≠ (int n).text := by
  intro heq
  obtain ⟨c, rest, htext, hc, -⟩ := h.text_eq
  obtain ⟨d, digits, htext', hd, -⟩ := exists_cons_toString_int n
  have hcons : c :: rest = d :: digits :=
    htext.symm.trans ((congrArg String.toList heq).trans htext')
  rw [(List.cons.inj hcons).1, hd] at hc
  cases hc

/-- No two leaves that are not closures are written as one word. -/
theorem text_injective {l l' : Leaf} (h : l.IsPlain) (h' : l'.IsPlain) (heq : l.text = l'.text) :
    l = l' := by
  cases l with
  | closure => exact h.elim
  | int n =>
      cases l' with
      | closure => exact h'.elim
      | int n' => rw [toString_int_injective heq]
      | bool b => exact absurd heq.symm (IsNamed.text_ne (l := .bool b) trivial n)
      | prim p => exact absurd heq.symm (IsNamed.text_ne (l := .prim p) trivial n)
  | bool b =>
      cases l' with
      | closure => exact h'.elim
      | int n' => exact absurd heq (IsNamed.text_ne (l := .bool b) trivial n')
      | bool b' => cases b <;> cases b' <;> first | rfl | exact absurd heq (by decide)
      | prim p => cases b <;> cases p <;> exact absurd heq (by decide)
  | prim p =>
      cases l' with
      | closure => exact h'.elim
      | int n' => exact absurd heq (IsNamed.text_ne (l := .prim p) trivial n')
      | bool b => cases b <;> cases p <;> exact absurd heq (by decide)
      | prim p' => cases p <;> cases p' <;> first | rfl | exact absurd heq (by decide)

end Leaf

/-! ## Data -/

/-- All leaves of the datum have the property. -/
inductive Datum.All (P : Leaf → Prop) : Datum → Prop
  | leaf {l : Leaf} (h : P l) : Datum.All P (.leaf l)
  | list {items : List Datum} (h : ∀ item ∈ items, Datum.All P item) : Datum.All P (.list items)

theorem Datum.all_leaf_iff {P : Leaf → Prop} {l : Leaf} : (Datum.leaf l).All P ↔ P l := by
  constructor
  · rintro ⟨h⟩
    exact h
  · exact .leaf

theorem Datum.all_list_iff {P : Leaf → Prop} {items : List Datum} :
    (Datum.list items).All P ↔ ∀ item ∈ items, item.All P := by
  constructor
  · rintro (_ | h)
    exact h
  · exact .list

/-- The datum has no closures. -/
def Datum.IsPlain (x : Datum) : Prop := x.All Leaf.IsPlain

mutual
/-- The text of a datum, in full. -/
def Datum.text : Datum → String
  | leaf l => l.text
  | list items => "(" ++ spaced true (Datum.texts items) ++ ")"

/-- The texts of elements. -/
def Datum.texts : List Datum → List String
  | [] => []
  | item :: items => item.text :: Datum.texts items
end

theorem Datum.texts_eq_map (items : List Datum) : Datum.texts items = items.map Datum.text := by
  induction items with
  | nil => rfl
  | cons item items ih => rw [texts, List.map_cons, ih]

/-- A datum that fits is written in full. -/
theorem Datum.Fits.text_eq {length room : Nat} {x : Datum} (h : x.Fits length room) :
    (x.sight length room).text = x.text := by
  induction h with
  | leaf => rw [sight_leaf, Sight.text, text]
  | @list room items hlength _ ih =>
      rw [sight, List.take_of_length_le hlength, decide_eq_false (Nat.not_lt.2 hlength), Sight.text,
        text, Sight.texts_eq_map, texts_eq_map, List.map_map, spaced_true]
      congr 2
      exact congrArg _ (List.map_congr_left ih)

/-- The text of a datum without closures starts with a letter, a digit, a sign or a parenthesis. -/
theorem Datum.IsPlain.text_start {x : Datum} (h : x.IsPlain) :
    ∃ c rest, x.text.toList = c :: rest ∧ c ≠ ')' := by
  cases x with
  | leaf l =>
      obtain ⟨c, rest, htext, hword⟩ := (all_leaf_iff.1 h).text_eq
      refine ⟨c, rest, by rw [text, htext], ?_⟩
      rintro rfl
      exact absurd (hword _ List.mem_cons_self) (by decide)
  | list items =>
      refine ⟨'(', (spaced true (texts items)).toList ++ [')'], ?_, by decide⟩
      simp [text]

/-- What stands behind an element: the elements after it, and the end of the list. -/
def Datum.behind (items : List Datum) (rest : List Char) : List Char :=
  (spaced false (Datum.texts items)).toList ++ ')' :: rest

theorem Datum.behind_nil (rest : List Char) : Datum.behind [] rest = ')' :: rest := rfl

theorem Datum.behind_cons (item : Datum) (items : List Datum) (rest : List Char) :
    Datum.behind (item :: items) rest = ' ' :: (item.text.toList ++ Datum.behind items rest) := by
  simp [Datum.behind, Datum.texts, spaced]

theorem Datum.endsWord_behind (items : List Datum) (rest : List Char) :
    EndsWord (Datum.behind items rest) := by
  intro c hc
  cases items with
  | nil =>
      rw [Datum.behind_nil] at hc
      cases hc
      rfl
  | cons item items =>
      rw [Datum.behind_cons] at hc
      cases hc
      rfl

theorem Datum.text_nil (rest : List Char) :
    (Datum.list []).text.toList ++ rest = '(' :: ')' :: rest := by
  simp [Datum.text, Datum.texts, spaced]

theorem Datum.text_cons (item : Datum) (items : List Datum) (rest : List Char) :
    (Datum.list (item :: items)).text.toList ++ rest =
      '(' :: (item.text.toList ++ Datum.behind items rest) := by
  simp [Datum.text, Datum.texts, spaced, Datum.behind]

/-- A word is not a list. -/
theorem Datum.leaf_append_ne {l : Leaf} (h : l.IsPlain) (items : List Datum)
    (rest rest' : List Char) :
    (Datum.leaf l).text.toList ++ rest ≠ (Datum.list items).text.toList ++ rest' := by
  obtain ⟨c, chars, htext, hword⟩ := h.text_eq
  intro heq
  have hstart : c = '(' := by
    rw [text, htext, text] at heq
    simp only [String.toList_append, List.append_assoc] at heq
    exact (List.cons.inj heq).1
  have hdelimiter := hword c List.mem_cons_self
  rw [hstart] at hdelimiter
  exact absurd hdelimiter (by decide)

/-- The end of a list is not the start of an element. -/
theorem Datum.IsPlain.append_ne {x : Datum} (h : x.IsPlain) (rest rest' : List Char) :
    x.text.toList ++ rest ≠ ')' :: rest' := by
  obtain ⟨c, chars, htext, hc⟩ := h.text_start
  rw [htext]
  exact fun heq => hc (List.cons.inj heq).1

mutual
/-- What stands in front of a boundary is the text of one datum only. -/
theorem Datum.text_append_inj : (x y : Datum) → x.IsPlain → y.IsPlain → {rest rest' : List Char} →
    EndsWord rest → EndsWord rest' → x.text.toList ++ rest = y.text.toList ++ rest' →
      x = y ∧ rest = rest'
  | .leaf l, .leaf l', hx, hy, rest, rest', hrest, hrest', h => by
      obtain ⟨c, chars, htext, hword⟩ := (all_leaf_iff.1 hx).text_eq
      obtain ⟨c', chars', htext', hword'⟩ := (all_leaf_iff.1 hy).text_eq
      rw [text, text, htext, htext'] at h
      obtain ⟨hchars, hsame⟩ := word_append_inj hword hword' hrest hrest' h
      have hleaf : l.text = l'.text := String.toList_inj.1 (by rw [htext, htext', hchars])
      rw [Leaf.text_injective (all_leaf_iff.1 hx) (all_leaf_iff.1 hy) hleaf]
      exact ⟨rfl, hsame⟩
  | .leaf l, .list items', hx, _, _, _, _, _, h =>
      absurd h (leaf_append_ne (all_leaf_iff.1 hx) items' _ _)
  | .list items, .leaf l', _, hy, _, _, _, _, h =>
      absurd h.symm (leaf_append_ne (all_leaf_iff.1 hy) items _ _)
  | .list [], .list [], _, _, _, _, _, _, h => by
      rw [text_nil, text_nil, List.cons.injEq, List.cons.injEq] at h
      exact ⟨rfl, h.2.2⟩
  | .list [], .list (y :: ys), _, hy, _, _, _, _, h => by
      rw [text_nil, text_cons, List.cons.injEq] at h
      exact absurd h.2.symm (IsPlain.append_ne (all_list_iff.1 hy y List.mem_cons_self) _ _)
  | .list (x :: xs), .list [], hx, _, _, _, _, _, h => by
      rw [text_nil, text_cons, List.cons.injEq] at h
      exact absurd h.2 (IsPlain.append_ne (all_list_iff.1 hx x List.mem_cons_self) _ _)
  | .list (x :: xs), .list (y :: ys), hx, hy, _, _, _, _, h => by
      rw [text_cons, text_cons, List.cons.injEq] at h
      obtain ⟨hxhead, hxs⟩ := List.forall_mem_cons.1 (all_list_iff.1 hx)
      obtain ⟨hyhead, hys⟩ := List.forall_mem_cons.1 (all_list_iff.1 hy)
      obtain ⟨rfl, hbehind⟩ := text_append_inj x y hxhead hyhead (endsWord_behind xs _)
        (endsWord_behind ys _) h.2
      obtain ⟨rfl, hrest⟩ := behind_inj xs ys hxs hys hbehind
      exact ⟨rfl, hrest⟩

/-- What stands behind an element tells the elements after it. -/
theorem Datum.behind_inj : (xs ys : List Datum) → (∀ x ∈ xs, x.IsPlain) → (∀ y ∈ ys, y.IsPlain) →
    {rest rest' : List Char} → Datum.behind xs rest = Datum.behind ys rest' →
      xs = ys ∧ rest = rest'
  | [], [], _, _, _, _, h => by
      rw [behind_nil, behind_nil, List.cons.injEq] at h
      exact ⟨rfl, h.2⟩
  | [], y :: ys, _, _, _, _, h => by
      rw [behind_nil, behind_cons, List.cons.injEq] at h
      exact absurd h.1 (by decide)
  | x :: xs, [], _, _, _, _, h => by
      rw [behind_nil, behind_cons, List.cons.injEq] at h
      exact absurd h.1 (by decide)
  | x :: xs, y :: ys, hx, hy, _, _, h => by
      rw [behind_cons, behind_cons, List.cons.injEq] at h
      obtain ⟨hxhead, hxs⟩ := List.forall_mem_cons.1 hx
      obtain ⟨hyhead, hys⟩ := List.forall_mem_cons.1 hy
      obtain ⟨rfl, hbehind⟩ := text_append_inj x y hxhead hyhead (endsWord_behind xs _)
        (endsWord_behind ys _) h.2
      obtain ⟨rfl, hrest⟩ := behind_inj xs ys hxs hys hbehind
      exact ⟨rfl, hrest⟩
end

/-- A datum without closures is told from its text. -/
theorem Datum.text_injective {x y : Datum} (hx : x.IsPlain) (hy : y.IsPlain)
    (h : x.text = y.text) : x = y := by
  have hboundary : EndsWord [] := nofun
  exact (Datum.text_append_inj x y hx hy hboundary hboundary (by rw [h])).1

end PolicyEval
