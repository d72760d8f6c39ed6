import PolicyEval.Proofs.Syntax.Tree
import PolicyEval.Token.Lexer

/-!
# Trees that can be spelled

A tree can be spelled over a table of names if its names are identifiers of the table, each `let`
defines something, and its integers are within bounds.  All that a lexer reads is within bounds, and
its identifiers are in the table that it returns.

* `Interner.Knows` — an identifier with the number that the table gives it.
* `Expr.Fits` — a tree that can be spelled.
* `Expr.Fits.spelled` — with bounds of either sign a tree can be spelled once its negative integers
  are.
* `scan_admits` — the tokens of a source are within bounds.
-/

namespace PolicyEval

/-! ## Identifiers -/

/-- Whether a text is a word that is neither reserved nor a constant nor a primitive. -/
def isIdentifier (text : String) : Bool :=
  (Sign.ofWord? text).isNone &&
    match text.toList with
    | [] => false
    | c :: cs => isWordStart c && cs.all isWordPart

namespace Interner

/-- The name is an identifier, and the table gives it its number. -/
def Knows (names : Interner) (name : Name) : Prop :=
  isIdentifier name.text = true ∧ names.get? name.text = some name

theorem indexOf?_push (names : Interner) (s s' : String) :
    indexOf? ⟨names.texts.push s'⟩ s =
      (names.indexOf? s).or (if s' = s then some names.texts.size else none) := by
  obtain ⟨⟨texts⟩⟩ := names
  simp only [indexOf?, List.push_toArray, List.idxOf?_toArray, List.size_toArray, List.idxOf?,
    List.findIdx?_append]
  by_cases h : s' = s <;> simp [h]

/-- A text has the name that it is given. -/
theorem get?_intern (names : Interner) (s : String) :
    (names.intern s).2.get? s = some (names.intern s).1 := by
  unfold intern get?
  cases h : names.indexOf? s with
  | some i => simp only [h, Option.map_some]
  | none => simp only [indexOf?_push, h, Option.none_or, if_true, Option.map_some]

/-- Names that were given stay. -/
theorem get?_intern_of_get? {names : Interner} {s : String} {name : Name}
    (h : names.get? s = some name) (s' : String) : (names.intern s').2.get? s = some name := by
  unfold intern
  cases hindex : names.indexOf? s' with
  | some i => exact h
  | none =>
      unfold get? at h ⊢
      obtain ⟨i, hi, rfl⟩ := Option.map_eq_some_iff.1 h
      simp only [indexOf?_push, hi, Option.some_or, Option.map_some]

/-- A text that has a name is interned as that name, and the table stays as it is. -/
theorem intern_of_get? {names : Interner} {s : String} {name : Name}
    (h : names.get? s = some name) : names.intern s = (name, names) := by
  unfold get? at h
  obtain ⟨i, hi, rfl⟩ := Option.map_eq_some_iff.1 h
  unfold intern
  rw [hi]

/-- A number within bounds, an identifier of the table, or another sign. -/
def Admits (names : Interner) : Sign → Prop
  | .int n => n ≤ maxInteger
  | .ident name => names.Knows name
  | _ => True

theorem Admits.intern {names : Interner} {sign : Sign} (h : names.Admits sign) (s : String) :
    (names.intern s).2.Admits sign := by
  cases sign with
  | ident name => exact ⟨h.1, get?_intern_of_get? h.2 s⟩
  | int n => exact h
  | _ => trivial

theorem intern_text (names : Interner) (s : String) : (names.intern s).1.text = s := by
  unfold intern
  cases names.indexOf? s <;> rfl

end Interner

/-! ## Trees over a table of names -/

/-- The integers that one token spells. -/
def IsLiteral (n : Int) : Prop := 0 ≤ n ∧ n ≤ maxInteger

/-- The integers that a token spells with a sign in front or without. -/
def IsSigned (n : Int) : Prop := -maxInteger ≤ n ∧ n ≤ maxInteger

namespace Expr

variable (names : Interner) (good : Int → Prop)

mutual
/-- The names of a tree are identifiers of the table, each `let` defines something, and the integers
are good. -/
def Fits : Expr → Prop
  | int _ n => good n
  | bool .. | null _ | prim .. => True
  | ident _ name => names.Knows name
  | unary _ _ operand => operand.Fits
  | binary _ _ left right => left.Fits ∧ right.Fits
  | call _ callee args => callee.Fits ∧ FitList args
  | map _ params body => (∀ b ∈ params, names.Knows b.name) ∧ body.Fits
  | cond _ test yes no => test.Fits ∧ yes.Fits ∧ no.Fits
  | letIn _ defs body => defs ≠ [] ∧ FitDefs defs ∧ body.Fits

/-- All trees fit. -/
def FitList : List Expr → Prop
  | [] => True
  | e :: es => e.Fits ∧ FitList es

/-- All names and right-hand sides of definitions fit. -/
def FitDefs : List (Binder × Expr) → Prop
  | [] => True
  | (b, e) :: ds => names.Knows b.name ∧ e.Fits ∧ FitDefs ds
end

variable {names}

mutual
/-- Once its negative integers are spelled, a tree has natural numbers only. -/
theorem Fits.spelled : (e : Expr) → e.Fits names IsSigned → e.spelled.Fits names IsLiteral
  | int p n, h => by
    simp only [Expr.spelled]
    split
    · exact ⟨by omega, by have := h.1; omega⟩
    · exact ⟨by omega, h.2⟩
  | bool .., h | null _, h | ident .., h | prim .., h => h
  | unary _ _ operand, h => Fits.spelled operand h
  | binary _ _ left right, h => ⟨Fits.spelled left h.1, Fits.spelled right h.2⟩
  | call _ callee args, h => ⟨Fits.spelled callee h.1, FitList.spelled args h.2⟩
  | map _ _ body, h => ⟨h.1, Fits.spelled body h.2⟩
  | cond _ test yes no, h =>
    ⟨Fits.spelled test h.1, Fits.spelled yes h.2.1, Fits.spelled no h.2.2⟩
  | letIn _ defs body, h => by
    refine ⟨?_, FitDefs.spelled defs h.2.1, Fits.spelled body h.2.2⟩
    cases defs with
    | nil => exact absurd rfl h.1
    | cons d ds => simp [spelledDefs]

theorem FitList.spelled : (es : List Expr) → FitList names IsSigned es →
    FitList names IsLiteral (spelledList es)
  | [], _ => trivial
  | e :: es, h => ⟨Fits.spelled e h.1, FitList.spelled es h.2⟩

theorem FitDefs.spelled : (ds : List (Binder × Expr)) → FitDefs names IsSigned ds →
    FitDefs names IsLiteral (spelledDefs ds)
  | [], _ => trivial
  | (_, e) :: ds, h => ⟨h.1, Fits.spelled e h.2.1, FitDefs.spelled ds h.2.2⟩
end

mutual
/-- A tree without negative integers is spelled as it is. -/
theorem spelled_eq_self : (e : Expr) → e.Fits names IsLiteral → e.spelled = e
  | int _ _, h => if_neg (Int.not_lt.2 h.1)
  | bool .., _ | null _, _ | ident .., _ | prim .., _ => rfl
  | unary _ _ operand, h => by rw [Expr.spelled, spelled_eq_self operand h]
  | binary _ _ left right, h => by
    rw [Expr.spelled, spelled_eq_self left h.1, spelled_eq_self right h.2]
  | call _ callee args, h => by
    rw [Expr.spelled, spelled_eq_self callee h.1, spelledList_eq_self args h.2]
  | map _ _ body, h => by rw [Expr.spelled, spelled_eq_self body h.2]
  | cond _ test yes no, h => by
    rw [Expr.spelled, spelled_eq_self test h.1, spelled_eq_self yes h.2.1,
      spelled_eq_self no h.2.2]
  | letIn _ defs body, h => by
    rw [Expr.spelled, spelledDefs_eq_self defs h.2.1, spelled_eq_self body h.2.2]

theorem spelledList_eq_self : (es : List Expr) → FitList names IsLiteral es → spelledList es = es
  | [], _ => rfl
  | e :: es, h => by rw [spelledList, spelled_eq_self e h.1, spelledList_eq_self es h.2]

theorem spelledDefs_eq_self : (ds : List (Binder × Expr)) → FitDefs names IsLiteral ds →
    spelledDefs ds = ds
  | [], _ => rfl
  | (_, e) :: ds, h => by rw [spelledDefs, spelled_eq_self e h.2.1, spelledDefs_eq_self ds h.2.2]
end

end Expr

/-! ## What a lexer reads -/

/-- A word starts like one and goes on like one. -/
theorem cut_word {c : Char} {cs : List Char} (h : (cut c cs).shape = .word) :
    isWordStart c = true ∧ ∃ ds, (cut c cs).text = c :: ds ∧ ds.all isWordPart = true := by
  have hsign : (cutSign c cs).shape ≠ .word := by
    unfold cutSign
    split <;> simp
  unfold cut at h ⊢
  split at h
  · cases h
  · split at h
    · cases h
    · split at h
      · next hstart =>
          refine ⟨hstart, cs.takeWhile isWordPart, ?_, List.all_takeWhile⟩
          simp only [*, if_false, if_true, Bool.false_eq_true]
          rfl
      · split at h
        · cases h
        · exact absurd h hsign

theorem isIdentifier_of_cut {c : Char} {cs : List Char} (h : (cut c cs).shape = .word)
    (hword : Sign.ofWord? (String.ofList (cut c cs).text) = none) :
    isIdentifier (String.ofList (cut c cs).text) = true := by
  obtain ⟨hstart, ds, htext, hpart⟩ := cut_word h
  rw [htext] at hword ⊢
  simp only [isIdentifier, hword, String.toList_ofList, Option.isNone_none, hstart, hpart,
    Bool.and_true]

theorem ofWord?_admits (names : Interner) {w : String} {sign : Sign}
    (h : Sign.ofWord? w = some sign) : names.Admits sign := by
  unfold Sign.ofWord? at h
  split at h
  · cases h
    trivial
  · split at h
    · cases h
      trivial
    · split at h
      · cases h
        trivial
      · split at h
        · cases h
          trivial
        · obtain ⟨p, -, rfl⟩ := Option.map_eq_some_iff.1 h
          trivial

theorem cut_sign_admits (names : Interner) {c : Char} {cs : List Char} {sign : Sign}
    (h : (cut c cs).shape = .sign sign) : names.Admits sign := by
  have hsign : (cutSign c cs).shape = .sign sign → names.Admits sign := by
    unfold cutSign
    split <;> rintro ⟨⟩ <;> trivial
  unfold cut at h
  split at h
  · cases h
  · split at h
    · cases h
    · split at h
      · cases h
      · split at h
        · cases h
        · exact hsign h

/-- All tokens of a source are within bounds, and identifiers are in the table of its names. -/
theorem scan_admits {offset : Nat} {names : Interner} {done : List Token} {cs : List Char}
    {ts : TokenList} (h : scan offset names done cs = .ok ts)
    (hdone : ∀ t ∈ done, names.Admits t.sign) : ∀ t ∈ ts.tokens, ts.names.Admits t.sign := by
  fun_induction scan offset names done cs with
  | case1 =>
      cases h
      simpa only [List.mem_reverse] using hdone
  | case2 _ _ _ _ _ _ _ _ ih => exact ih h hdone
  | case3 _ _ _ _ _ _ _ _ _ _ _ hvalue ih =>
      exact ih h (List.forall_mem_cons.2 ⟨hvalue, hdone⟩)
  | case5 _ names _ _ _ _ _ _ _ _ _ hword ih =>
      exact ih h (List.forall_mem_cons.2 ⟨ofWord?_admits names hword, hdone⟩)
  | case6 _ names _ c cs piece _ _ text hshape hword name names' hintern ih =>
      have hname : name = (names.intern text).1 := by rw [hintern]
      have hnames : names' = (names.intern text).2 := by rw [hintern]
      refine ih h (List.forall_mem_cons.2 ⟨?_, fun t ht => hnames ▸ (hdone t ht).intern text⟩)
      subst hname hnames
      refine ⟨?_, ?_⟩
      · rw [Interner.intern_text]
        exact isIdentifier_of_cut hshape hword
      · rw [Interner.intern_text]
        exact names.get?_intern text
  | case7 _ names _ _ _ _ _ _ _ _ hshape ih =>
      exact ih h (List.forall_mem_cons.2 ⟨cut_sign_admits names hshape, hdone⟩)
  | case4 | case8 => cases h

end PolicyEval
