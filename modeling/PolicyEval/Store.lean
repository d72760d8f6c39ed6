import PolicyEval.Value

/-!
# Stores — what changes during evaluation

A store keeps the results of thunks that are evaluated once, by the addresses of their cells, and
hands out the tags that tell closures, list cells and environment frames apart.  Cells are only ever
added, and a result once kept stays.

* `Store.allocate`, `Store.kept?`, `Store.keep` — cells.
* `Store.freshTag` — an unused tag.
* `Store.extend` — an environment with new bindings in front.
* `Store.eagerList` — a list whose parts are all known.
-/

namespace PolicyEval

/-- The results kept by address, and the tag for the next closure, list cell or frame.  A cell
without a result belongs to a thunk that was not evaluated yet, or only without success. -/
structure Store where
  cells : Array (Option Value)
  nextTag : Nat

namespace Store

/-- The store without cells. -/
def empty : Store := ⟨#[], 0⟩

instance : Inhabited Store := ⟨empty⟩

/-- An unused tag, and the store in which it is used. -/
def freshTag (s : Store) : Nat × Store := (s.nextTag, { s with nextTag := s.nextTag + 1 })

/-- Adds a cell without a result, and gives its address. -/
def allocate (s : Store) : Nat × Store :=
  (s.cells.size, { s with cells := s.cells.push none })

/-- The result kept at an address. -/
def kept? (s : Store) (address : Nat) : Option Value := s.cells[address]?.join

/-- Keeps a result. -/
def keep (s : Store) (address : Nat) (v : Value) : Store :=
  { s with cells := s.cells.setIfInBounds address (some v) }

/-- Whether the value of a thunk is known without an evaluation. -/
def isForced (s : Store) : Thunk → Bool
  | .ready _ => true
  | .byName _ => false
  | .byNeed address _ => (s.kept? address).isSome

/-- Puts bindings in front of an environment, the first one innermost, each in a new frame. -/
def extend (s : Store) (env : Env) : List (Name × Thunk) → Env × Store
  | [] => (env, s)
  | (name, thunk) :: bindings =>
    let (inner, s) := s.extend env bindings
    let (tag, s) := s.freshTag
    (.frame tag name thunk inner, s)

/-- A new list cell with known parts. -/
def eagerCons (s : Store) (head tail : Value) : Value × Store :=
  let (tag, s) := s.freshTag
  (.cons tag (.ready head) (.ready tail), s)

/-- The list of the given values, in new cells. -/
def eagerList (s : Store) : List Value → Value × Store
  | [] => (.nil, s)
  | v :: vs =>
    let (tail, s) := s.eagerList vs
    s.eagerCons v tail

end Store

end PolicyEval
