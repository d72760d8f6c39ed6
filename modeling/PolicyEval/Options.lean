import PolicyEval.Decimal
import PolicyEval.Policy
import PolicyEval.Scope

/-!
# Options of the evaluating commands

An argument that starts with two dashes is a flag; every other argument is positional.  Flags may
stand anywhere, and of two flags that set the same option the later one wins.

* `Options` — the options and their defaults.
* `Flag.parse` — the flag that an argument is.
* `Options.parseArgs` — positional arguments and options of an argument list.
* `Options.withPolicyWords` — the policy given by positional words.
-/

namespace PolicyEval

/-- What the evaluating commands can be told. -/
structure Options where
  config : Config
  mode : ScopeMode
  stats : Bool
deriving DecidableEq

/-- The options when no flag is given. -/
def Options.default : Options := ⟨Config.ofPolicy .eager, .lexical, false⟩

/-! ## Errors -/

/-- Why arguments cannot be understood. -/
inductive OptionError where
  /-- A word that is no discipline. -/
  | unknownDiscipline (word : String)
  /-- A count that the flag does not take. -/
  | invalidValue (flag value expected : String)
  /-- A flag that does not exist. -/
  | unknownOption (arg : String)
  /-- A positional argument too many. -/
  | unexpectedArgument (arg : String)
deriving DecidableEq

/-- The message for arguments that cannot be understood. -/
def OptionError.message : OptionError → String
  | unknownDiscipline word =>
    s!"unknown discipline `{word}` (expected `value`, `name` or `need`)"
  | invalidValue flag value expected =>
    s!"invalid value `{value}` for `{flag}` (expected {expected})"
  | unknownOption arg => s!"unknown option `{arg}`"
  | unexpectedArgument arg => s!"unexpected argument `{arg}`"

/-! ## Values of flags -/

/-- The discipline that a word names. -/
def parseDiscipline (word : String) : Except OptionError Discipline :=
  match Discipline.ofText? word with
  | some d => .ok d
  | none => .error (.unknownDiscipline word)

/-- A count of at least one, as the value of a flag. -/
def parseCount (flag expected value : String) : Except OptionError Nat :=
  match (count? value).filter fun n => decide (0 < n) with
  | some n => .ok n
  | none => .error (.invalidValue flag value expected)

/-! ## Flags -/

/-- A flag with its value. -/
inductive Flag where
  | args (d : Discipline)
  | lists (d : Discipline)
  | maxDepth (limit : Option Nat)
  | printDepth (n : Nat)
  | flatScopes
  | stats
deriving DecidableEq

/-- Whether an argument is a flag. -/
def isFlag (arg : String) : Bool := "--".toList.isPrefixOf arg.toList

/-- What follows the given start of an argument. -/
def afterStart? (start arg : String) : Option String :=
  (start.toList.isPrefixOf? arg.toList).map String.ofList

/-- The greatest nesting that a flag allows. -/
def parseMaxDepth (value : String) : Except OptionError (Option Nat) :=
  if value.map Char.toLower = "none" then .ok none
  else (parseCount "--max-depth" "a positive integer or `none`" value).map some

/-- The flag that an argument is. -/
def Flag.parse (arg : String) : Except OptionError Flag :=
  match afterStart? "--args=" arg with
  | some value => (parseDiscipline value).map .args
  | none =>
    match afterStart? "--lists=" arg with
    | some value => (parseDiscipline value).map .lists
    | none =>
      match afterStart? "--max-depth=" arg with
      | some value => (parseMaxDepth value).map .maxDepth
      | none =>
        match afterStart? "--print-depth=" arg with
        | some value => (parseCount "--print-depth" "a positive integer" value).map .printDepth
        | none =>
          if arg = "--flat-scopes" then .ok .flatScopes
          else if arg = "--stats" then .ok .stats
          else .error (.unknownOption arg)

namespace Options

/-- The policy of the options. -/
def policy (o : Options) : Policy := o.config.setting.policy

/-- The options with another policy. -/
def withPolicy (o : Options) (policy : Policy) : Options :=
  { o with config := { o.config with setting := { o.config.setting with policy } } }

/-- Sets the option of a flag. -/
def set (o : Options) : Flag → Options
  | .args d => o.withPolicy { o.policy with args := d }
  | .lists d => o.withPolicy { o.policy with lists := d }
  | .maxDepth limit =>
    { o with config := { o.config with setting := { o.config.setting with maxDepth := limit } } }
  | .printDepth n => { o with config := { o.config with printDepth := n } }
  | .flatScopes => { o with mode := .flat }
  | .stats => { o with stats := true }

/-- Reads arguments into positional arguments, kept last first, and options. -/
def parseFrom (positionals : List String) (o : Options) :
    List String → Except OptionError (List String × Options)
  | [] => .ok (positionals.reverse, o)
  | arg :: args =>
    if isFlag arg then
      match Flag.parse arg with
      | .ok flag => parseFrom positionals (o.set flag) args
      | .error e => .error e
    else parseFrom (arg :: positionals) o args

/-- The positional arguments and the options of an argument list. -/
def parseArgs (args : List String) : Except OptionError (List String × Options) :=
  parseFrom [] .default args

/-- Sets the policy by up to two words, arguments before lists.  The options are given also when a
word is refused; they are then set up to that word. -/
def withPolicyWords (o : Options) (words : List String) : Options × Except OptionError Unit :=
  match words with
  | [] => (o, .ok ())
  | [args] =>
    match parseDiscipline args with
    | .ok d => (o.set (.args d), .ok ())
    | .error e => (o, .error e)
  | [args, lists] =>
    match parseDiscipline args with
    | .error e => (o, .error e)
    | .ok d =>
      match parseDiscipline lists with
      | .ok d' => ((o.set (.args d)).set (.lists d'), .ok ())
      | .error e => (o.set (.args d), .error e)
  | _ :: _ :: extra :: _ => (o, .error (.unexpectedArgument extra))

end Options

end PolicyEval
