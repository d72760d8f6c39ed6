/-!
# Names and interners

A name is an identifier of a program together with the number its interner gave it.  Names are
compared by that number alone; the text is kept beside it so that a name can be printed without its
interner.

* `Interner` — the table of the texts met so far, numbered in order of first occurrence.  The empty
  text is there from the start and has number 0.
* `Interner.intern` — the name of a text, which joins the table if it is new.
* `Interner.get?` — the name of a text that is already there.
* `Interner.text` — the text of a number.
-/

namespace PolicyEval

/-- An interned identifier: its number and its text. -/
structure Name where
  index : Nat
  text : String
deriving DecidableEq, Inhabited

namespace Name

/-- Two names are the same name when an interner gave them the same number. -/
def same (a b : Name) : Bool := a.index == b.index

@[simp] theorem same_iff (a b : Name) : a.same b = true ↔ a.index = b.index := by
  simp [same]

/-- The form of a name in listings of bindings. -/
def listing (n : Name) : String := s!"Name({n.index})"

end Name

/-- The table of an interner: the text with number `i` stands at position `i`. -/
structure Interner where
  texts : Array String
deriving DecidableEq

namespace Interner

/-- The table that holds the empty text only. -/
def empty : Interner := ⟨#[""]⟩

instance : Inhabited Interner := ⟨empty⟩

/-- The number of texts in the table, the empty one included. -/
def size (t : Interner) : Nat := t.texts.size

/-- Whether no text was interned beside the empty one. -/
def isEmpty (t : Interner) : Bool := decide (t.size ≤ 1)

/-- The number of a text that is in the table. -/
def indexOf? (t : Interner) (s : String) : Option Nat := t.texts.idxOf? s

/-- The name of a text that is in the table. -/
def get? (t : Interner) (s : String) : Option Name :=
  (t.indexOf? s).map fun i => ⟨i, s⟩

/-- The name of a text, and the table in which it has that name. -/
def intern (t : Interner) (s : String) : Name × Interner :=
  match t.indexOf? s with
  | some i => (⟨i, s⟩, t)
  | none => (⟨t.texts.size, s⟩, ⟨t.texts.push s⟩)

/-- The text with the given number, and the empty text for a number not given out. -/
def text (t : Interner) (i : Nat) : String := t.texts[i]?.getD ""

/-- The interned texts in order of first occurrence, the empty one left out. -/
def identifiers (t : Interner) : List String := t.texts.toList.drop 1

end Interner

end PolicyEval
