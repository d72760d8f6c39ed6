import PolicyEval.Store

/-!
# Literals — values written down

A literal denotes a value without closures and without delayed parts.  Its lists get new cells each
time the value is made, so two values of one literal are equal but not the same.
-/

namespace PolicyEval

/-- A value written down: no closures and no delayed parts. -/
inductive Literal where
  | int (n : Int)
  | bool (b : Bool)
  | prim (p : Prim)
  | list (items : List Literal)

mutual
/-- The value of a literal, its lists in new cells. -/
def Store.ofLiteral (s : Store) : Literal → Value × Store
  | .int n => (.int n, s)
  | .bool b => (.bool b, s)
  | .prim p => (.prim p, s)
  | .list items =>
    let (values, s) := s.ofLiterals items
    s.eagerList values

/-- The values of several literals. -/
def Store.ofLiterals (s : Store) : List Literal → List Value × Store
  | [] => ([], s)
  | item :: items =>
    let (v, s) := s.ofLiteral item
    let (vs, s) := s.ofLiterals items
    (v :: vs, s)
end

end PolicyEval
