/-!
# Evaluation policies

A policy says when expressions are evaluated, on two independent axes: the arguments of calls and
the right-hand sides of definitions on one, the parts of list cells on the other.  On each axis one
of three disciplines holds, which makes nine policies.

* `Discipline.value` evaluates at once;
* `Discipline.name` evaluates at every use;
* `Discipline.need` evaluates at the first use and keeps the result.
-/

namespace PolicyEval

/-- When a delayed expression is evaluated. -/
inductive Discipline where
  | value | name | need
deriving DecidableEq, Inhabited

namespace Discipline

/-- The three disciplines. -/
def all : List Discipline := [value, name, need]

/-- The word for a discipline. -/
def text : Discipline → String
  | value => "value"
  | name => "name"
  | need => "need"

/-- Reads the word for a discipline, in upper or lower case. -/
def ofText? (s : String) : Option Discipline :=
  all.find? fun d => d.text == s.map Char.toLower

theorem ofText?_text (d : Discipline) : ofText? d.text = some d := by
  cases d <;> decide +kernel

end Discipline

/-- A discipline for arguments and definitions, and one for list cells. -/
structure Policy where
  args : Discipline
  lists : Discipline
deriving DecidableEq, Inhabited

namespace Policy

/-- The nine policies, those with the same discipline for arguments next to each other. -/
def all : List Policy :=
  Discipline.all.flatMap fun args => Discipline.all.map fun lists => ⟨args, lists⟩

/-- The written form of a policy: arguments, a slash, lists. -/
def text (p : Policy) : String := p.args.text ++ "/" ++ p.lists.text

/-- The policy that evaluates everything at once. -/
def eager : Policy := ⟨.value, .value⟩

theorem mem_all (p : Policy) : p ∈ all := by
  obtain ⟨args, lists⟩ := p
  cases args <;> cases lists <;> decide

end Policy

/-- What stays fixed during one evaluation: the policy and the greatest nesting allowed. -/
structure Setting where
  policy : Policy
  maxDepth : Option Nat
deriving DecidableEq, Inhabited

/-- What a run of a program is told: the setting of its evaluation and how much of its value is
printed. -/
structure Config where
  setting : Setting
  printDepth : Nat
deriving DecidableEq, Inhabited

namespace Config

/-- The greatest nesting allowed unless told otherwise. -/
def defaultMaxDepth : Nat := 100000

/-- The printed length and nesting of lists unless told otherwise. -/
def defaultPrintDepth : Nat := 1000

/-- The configuration with default limits for a policy. -/
def ofPolicy (p : Policy) : Config := ⟨⟨p, some defaultMaxDepth⟩, defaultPrintDepth⟩

end Config

end PolicyEval
