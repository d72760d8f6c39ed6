import Mathlib.Data.List.Basic
import PolicyEval.Options

/-!
# Arguments in any order

Reading arguments goes from left to right and changes the options as it goes.  What comes out does
not depend on that: every argument is read on its own, the first flag that is none is reported, the
positional arguments keep their order, and each option has the value that the last flag for it
gives.  So the place of a flag among the arguments matters only against flags for the same option.

* `Flag.Spells` — how a flag is written; no argument spells two flags.
* `OptionName`, `Options.get`, `Flag.value?` — the options one by one, and what a flag gives them.
* `Gives`, `Sets`, `IsLastGiven` — the value that the text of an argument gives to an option, and the
  value that a list of arguments leaves it at.
* `Options.parseFrom_eq` — the arguments as a log: the first error, or positionals and flags in order.
* `Options.get_foldl_set` — a log of flags leaves each option at the last value given to it.
* `parseArgs_order` — the result of an argument list, and when two arguments may be exchanged.
-/

namespace PolicyEval

/-! ## How flags are written -/

/-- The argument is written like the flag. -/
inductive Flag.Spells : String → Flag → Prop
  | args {word : String} {d : Discipline} (h : Discipline.ofText? word = some d) :
      Spells ("--args=" ++ word) (.args d)
  | lists {word : String} {d : Discipline} (h : Discipline.ofText? word = some d) :
      Spells ("--lists=" ++ word) (.lists d)
  | unlimited {word : String} (h : word.map Char.toLower = "none") :
      Spells ("--max-depth=" ++ word) (.maxDepth none)
  | maxDepth {word : String} {n : Nat} (h : count? word = some n) (hpos : 0 < n) :
      Spells ("--max-depth=" ++ word) (.maxDepth (some n))
  | printDepth {word : String} {n : Nat} (h : count? word = some n) (hpos : 0 < n) :
      Spells ("--print-depth=" ++ word) (.printDepth n)
  | flatScopes : Spells "--flat-scopes" .flatScopes
  | stats : Spells "--stats" .stats

theorem afterStart?_eq_some {start arg value : String} :
    afterStart? start arg = some value ↔ arg = start ++ value := by
  rw [afterStart?, Option.map_eq_some_iff, ← String.toList_inj, String.toList_append]
  simp only [List.isPrefixOf?_eq_some_iff_append_eq]
  constructor
  · rintro ⟨cs, hcs, rfl⟩
    rw [String.toList_ofList]
    exact hcs.symm
  · intro h
    exact ⟨value.toList, h.symm, String.ofList_toList⟩

theorem afterStart?_eq_none {start arg : String} :
    afterStart? start arg = none ↔ ∀ value, arg ≠ start ++ value := by
  simp only [Option.eq_none_iff_forall_ne_some, ne_eq, afterStart?_eq_some]

theorem Except.map_eq_ok {ε α β : Type} {f : α → β} {result : Except ε α} {b : β} :
    result.map f = .ok b ↔ ∃ a, result = .ok a ∧ f a = b := by
  cases result <;> simp [Except.map]

theorem parseDiscipline_eq_ok {word : String} {d : Discipline} :
    parseDiscipline word = .ok d ↔ Discipline.ofText? word = some d := by
  unfold parseDiscipline
  cases Discipline.ofText? word <;> simp

theorem parseCount_eq_ok {flag expected value : String} {n : Nat} :
    parseCount flag expected value = .ok n ↔ count? value = some n ∧ 0 < n := by
  have hfilter : (count? value).filter (fun n => decide (0 < n)) = some n ↔
      count? value = some n ∧ 0 < n := by
    simp [Option.filter_eq_some_iff]
  rw [← hfilter, parseCount]
  cases (count? value).filter fun n => decide (0 < n) <;> simp

theorem not_isDigit_of_toLower {c : Char} (h : c.toLower = 'n') : c.isDigit = false := by
  refine Bool.eq_false_iff.2 fun hdigit => ?_
  have hsame : c.toLower = c := by
    simp only [Char.isDigit, Bool.and_eq_true, decide_eq_true_eq] at hdigit
    unfold Char.toLower
    rw [dif_neg]
    intro hupper
    exact absurd (UInt32.le_trans hupper.1 hdigit.2) (by decide)
  rw [hsame] at h
  subst h
  exact absurd hdigit (by decide)

/-- The word for no limit is no count. -/
theorem count?_of_none {word : String} (h : word.map Char.toLower = "none") :
    count? word = none := by
  have hlower : word.toList.map Char.toLower = ['n', 'o', 'n', 'e'] := by
    rw [← String.toList_map, h]
    rfl
  unfold count?
  cases hword : word.toList with
  | nil => rfl
  | cons c cs =>
      rw [hword, List.map_cons] at hlower
      have hc : c.toLower = 'n' := (List.cons.inj hlower).1
      have hnone : natural? (c :: cs) = none := by
        simp [natural?, not_isDigit_of_toLower hc]
      split
      next heq =>
        rw [(List.cons.inj heq).1] at hc
        exact absurd hc (by decide)
      next =>
        rw [hnone]
        rfl

theorem parseMaxDepth_eq_ok {word : String} {limit : Option Nat} :
    parseMaxDepth word = .ok limit ↔
      (word.map Char.toLower = "none" ∧ limit = none) ∨
        ∃ n, (count? word = some n ∧ 0 < n) ∧ limit = some n := by
  unfold parseMaxDepth
  split
  next hnone => simp [hnone, count?_of_none hnone, eq_comm]
  next hcount =>
    rw [Except.map_eq_ok]
    simp [hcount, parseCount_eq_ok, @eq_comm _ limit]

/-- Of two texts that differ somewhere, no argument starts with both. -/
theorem afterStart?_append_eq_none {start other : String} (h : ¬start.toList <+: other.toList)
    (h' : ¬other.toList <+: start.toList) (word : String) :
    afterStart? start (other ++ word) = none := by
  refine afterStart?_eq_none.2 fun value heq => ?_
  have hlist := congrArg String.toList heq
  rw [String.toList_append, String.toList_append] at hlist
  have hstart : start.toList <+: other.toList ++ word.toList := ⟨value.toList, hlist.symm⟩
  have hother : other.toList <+: other.toList ++ word.toList := List.prefix_append _ _
  exact (List.prefix_or_prefix_of_prefix hstart hother).elim h h'

/-- What an argument is read as, it spells. -/
theorem Flag.spells_of_parse {arg : String} {flag : Flag} (h : Flag.parse arg = .ok flag) :
    Flag.Spells arg flag := by
  unfold Flag.parse at h
  -- One kind of flag after another is tried, and the first one that fits is taken.
  split at h
  next word hargs =>
    obtain ⟨d, hd, rfl⟩ := Except.map_eq_ok.1 h
    rw [afterStart?_eq_some.1 hargs]
    exact .args (parseDiscipline_eq_ok.1 hd)
  next =>
  split at h
  next word hlists =>
    obtain ⟨d, hd, rfl⟩ := Except.map_eq_ok.1 h
    rw [afterStart?_eq_some.1 hlists]
    exact .lists (parseDiscipline_eq_ok.1 hd)
  next =>
  split at h
  next word hmaxDepth =>
    obtain ⟨limit, hlimit, rfl⟩ := Except.map_eq_ok.1 h
    rw [afterStart?_eq_some.1 hmaxDepth]
    obtain ⟨hnone, rfl⟩ | ⟨n, ⟨hcount, hpos⟩, rfl⟩ := parseMaxDepth_eq_ok.1 hlimit
    · exact .unlimited hnone
    · exact .maxDepth hcount hpos
  next =>
  split at h
  next word hprintDepth =>
    obtain ⟨n, hn, rfl⟩ := Except.map_eq_ok.1 h
    rw [afterStart?_eq_some.1 hprintDepth]
    obtain ⟨hcount, hpos⟩ := parseCount_eq_ok.1 hn
    exact .printDepth hcount hpos
  next =>
  split at h
  next hflat =>
    cases h
    rw [hflat]
    exact .flatScopes
  next =>
  split at h
  next hstats =>
    cases h
    rw [hstats]
    exact .stats
  next => cases h

/-- What an argument spells, it is read as: no flag that is looked for earlier starts like it. -/
theorem Flag.parse_of_spells {arg : String} {flag : Flag} (h : Flag.Spells arg flag) :
    Flag.parse arg = .ok flag := by
  unfold Flag.parse
  cases h with
  | @args word d hd =>
      rw [afterStart?_eq_some.2 rfl]
      exact Except.map_eq_ok.2 ⟨d, parseDiscipline_eq_ok.2 hd, rfl⟩
  | @lists word d hd =>
      rw [afterStart?_append_eq_none (by decide) (by decide), afterStart?_eq_some.2 rfl]
      exact Except.map_eq_ok.2 ⟨d, parseDiscipline_eq_ok.2 hd, rfl⟩
  | @unlimited word hnone =>
      rw [afterStart?_append_eq_none (by decide) (by decide),
        afterStart?_append_eq_none (by decide) (by decide), afterStart?_eq_some.2 rfl]
      exact Except.map_eq_ok.2 ⟨none, parseMaxDepth_eq_ok.2 (.inl ⟨hnone, rfl⟩), rfl⟩
  | @maxDepth word n hcount hpos =>
      rw [afterStart?_append_eq_none (by decide) (by decide),
        afterStart?_append_eq_none (by decide) (by decide), afterStart?_eq_some.2 rfl]
      exact Except.map_eq_ok.2
        ⟨some n, parseMaxDepth_eq_ok.2 (.inr ⟨n, ⟨hcount, hpos⟩, rfl⟩), rfl⟩
  | @printDepth word n hcount hpos =>
      rw [afterStart?_append_eq_none (by decide) (by decide),
        afterStart?_append_eq_none (by decide) (by decide),
        afterStart?_append_eq_none (by decide) (by decide), afterStart?_eq_some.2 rfl]
      exact Except.map_eq_ok.2 ⟨n, parseCount_eq_ok.2 ⟨hcount, hpos⟩, rfl⟩
  | flatScopes => rfl
  | stats => rfl

/-- Reading an argument as a flag finds the flag that it spells. -/
theorem Flag.parse_eq_ok {arg : String} {flag : Flag} :
    Flag.parse arg = .ok flag ↔ Flag.Spells arg flag :=
  ⟨spells_of_parse, parse_of_spells⟩

/-- What spells a flag looks like one. -/
theorem Flag.Spells.isFlag {arg : String} {flag : Flag} (h : Flag.Spells arg flag) :
    isFlag arg = true := by
  unfold PolicyEval.isFlag
  cases h <;> simp [String.toList_append]

/-! ## The options one by one -/

/-- The options. -/
inductive OptionName where
  | args | lists | maxDepth | printDepth | scopes | stats
deriving DecidableEq

/-- The kind of value that an option has. -/
def OptionName.Value : OptionName → Type
  | args | lists => Discipline
  | maxDepth => Option Nat
  | printDepth => Nat
  | scopes => ScopeMode
  | stats => Bool

/-- The value of an option. -/
def Options.get (o : Options) : (k : OptionName) → k.Value
  | .args => o.policy.args
  | .lists => o.policy.lists
  | .maxDepth => o.config.setting.maxDepth
  | .printDepth => o.config.printDepth
  | .scopes => o.mode
  | .stats => o.stats

/-- There is nothing to the options but their values. -/
theorem Options.ext_get {o o' : Options} (h : ∀ k, o.get k = o'.get k) : o = o' := by
  obtain ⟨⟨⟨⟨args, lists⟩, maxDepth⟩, printDepth⟩, mode, stats⟩ := o
  obtain ⟨⟨⟨⟨args', lists'⟩, maxDepth'⟩, printDepth'⟩, mode', stats'⟩ := o'
  obtain rfl : args = args' := h .args
  obtain rfl : lists = lists' := h .lists
  obtain rfl : maxDepth = maxDepth' := h .maxDepth
  obtain rfl : printDepth = printDepth' := h .printDepth
  obtain rfl : mode = mode' := h .scopes
  obtain rfl : stats = stats' := h .stats
  rfl

/-- The value that a flag gives to an option, if it is a flag for that option. -/
def Flag.value? : (k : OptionName) → Flag → Option k.Value
  | .args, .args d => some d
  | .lists, .lists d => some d
  | .maxDepth, .maxDepth limit => some limit
  | .printDepth, .printDepth n => some n
  | .scopes, .flatScopes => some .flat
  | .stats, .stats => some true
  | _, _ => none

/-- A flag changes the option that it is for, and no other one. -/
theorem Options.get_set (o : Options) (flag : Flag) (k : OptionName) :
    (o.set flag).get k = (flag.value? k).getD (o.get k) := by
  cases flag <;> cases k <;> rfl

/-- After some flags, an option has the value that the last one for it gives, or its old value if
there is none. -/
theorem Options.get_foldl_set (flags : List Flag) (o : Options) (k : OptionName) :
    (flags.foldl Options.set o).get k =
      ((flags.filterMap (Flag.value? k)).getLast?).getD (o.get k) := by
  induction flags generalizing o with
  | nil => rfl
  | cons flag flags ih =>
      rw [List.foldl_cons, ih, Options.get_set, List.filterMap_cons]
      cases flag.value? k with
      | none => rfl
      | some value =>
          rw [List.getLast?_cons]
          cases (flags.filterMap (Flag.value? k)).getLast? <;> rfl

/-! ## Arguments as a log -/

/-- The flag that an argument is, if it is a valid one. -/
def flagOf? (arg : String) : Option Flag := if isFlag arg then (Flag.parse arg).toOption else none

/-- Why an argument is an invalid flag, if it is one. -/
def flawOf? (arg : String) : Option OptionError :=
  if isFlag arg then
    match Flag.parse arg with
    | .ok _ => none
    | .error e => some e
  else none

/-- The value that an argument gives to an option. -/
def settingOf? (k : OptionName) (arg : String) : Option k.Value := (flagOf? arg).bind (Flag.value? k)

/-- The arguments that are not flags. -/
def positionalsOf (args : List String) : List String := args.filter fun arg => !isFlag arg

theorem flagOf?_eq_some {arg : String} {flag : Flag} :
    flagOf? arg = some flag ↔ Flag.Spells arg flag := by
  unfold flagOf?
  by_cases hflag : isFlag arg = true
  · rw [if_pos hflag, ← Flag.parse_eq_ok]
    cases Flag.parse arg <;> simp [Except.toOption]
  · rw [if_neg hflag]
    exact iff_of_false (Option.some_ne_none flag).symm fun hspells => hflag hspells.isFlag

namespace Options

/-- Reading arguments comes to the first invalid flag, or to the positional arguments in order and
the options after all flags in order. -/
theorem parseFrom_eq (positionals : List String) (o : Options) (args : List String) :
    parseFrom positionals o args =
      match args.findSome? flawOf? with
      | some e => .error e
      | none =>
        .ok (positionals.reverse ++ positionalsOf args, (args.filterMap flagOf?).foldl set o) := by
  induction args generalizing positionals o with
  | nil => simp [parseFrom, positionalsOf]
  | cons arg args ih =>
      rw [parseFrom]
      by_cases hflag : isFlag arg = true
      · cases hparse : Flag.parse arg with
        | ok flag =>
            simp [hflag, hparse, ih, flawOf?, flagOf?, positionalsOf, Except.toOption]
        | error e => simp [hflag, hparse, flawOf?]
      · simp [hflag, ih, flawOf?, flagOf?, positionalsOf]

theorem parseArgs_eq_ok {args : List String} {result : List String × Options} :
    parseArgs args = .ok result ↔ (∀ arg ∈ args, flawOf? arg = none) ∧
      result = (positionalsOf args, (args.filterMap flagOf?).foldl set .default) := by
  rw [parseArgs, parseFrom_eq, ← List.findSome?_eq_none_iff]
  cases args.findSome? flawOf? <;> simp [eq_comm]

theorem parseArgs_eq_error {args : List String} {e : OptionError} :
    parseArgs args = .error e ↔ args.findSome? flawOf? = some e := by
  rw [parseArgs, parseFrom_eq]
  cases args.findSome? flawOf? <;> simp

/-- When all arguments are read, an option has the value that the last argument for it gives. -/
theorem get_of_parseArgs {args positionals : List String} {o : Options}
    (h : parseArgs args = .ok (positionals, o)) (k : OptionName) :
    o.get k = ((args.filterMap (settingOf? k)).getLast?).getD (Options.default.get k) := by
  obtain ⟨-, hresult⟩ := parseArgs_eq_ok.1 h
  rw [(Prod.mk.inj hresult).2, get_foldl_set, List.filterMap_filterMap]
  rfl

end Options

/-! ## What arguments say -/

/-- The argument is written like a flag that gives the value to the option. -/
def Gives (k : OptionName) (arg : String) (value : k.Value) : Prop :=
  ∃ flag, Flag.Spells arg flag ∧ flag.value? k = some value

/-- The argument sets the option. -/
def Sets (k : OptionName) (arg : String) : Prop := ∃ value, Gives k arg value

/-- The last of the arguments that set the option gives it the value, or none of them sets it and the
value is its default. -/
def IsLastGiven (k : OptionName) (args : List String) (value : k.Value) : Prop :=
  (∃ before arg after, args = before ++ arg :: after ∧ Gives k arg value ∧
      ∀ later ∈ after, ¬Sets k later) ∨
    (∀ arg ∈ args, ¬Sets k arg) ∧ value = Options.default.get k

theorem Sets.isFlag {k : OptionName} {arg : String} (h : Sets k arg) : isFlag arg = true := by
  obtain ⟨value, flag, hspells, -⟩ := h
  exact hspells.isFlag

theorem settingOf?_eq_some {k : OptionName} {arg : String} {value : k.Value} :
    settingOf? k arg = some value ↔ Gives k arg value := by
  simp only [settingOf?, Gives, Option.bind_eq_some_iff, flagOf?_eq_some]

theorem settingOf?_eq_none {k : OptionName} {arg : String} :
    settingOf? k arg = none ↔ ¬Sets k arg := by
  simp only [Option.eq_none_iff_forall_ne_some, ne_eq, settingOf?_eq_some, Sets, not_exists]

/-- When all arguments are read, each option is at the value that was given last. -/
theorem isLastGiven_of_parseArgs {args positionals : List String} {o : Options}
    (h : Options.parseArgs args = .ok (positionals, o)) (k : OptionName) :
    IsLastGiven k args (o.get k) := by
  rw [Options.get_of_parseArgs h]
  cases hlast : (args.filterMap (settingOf? k)).getLast? with
  | none =>
      rw [List.getLast?_eq_none_iff, List.filterMap_eq_nil_iff] at hlast
      exact .inr ⟨fun arg harg => settingOf?_eq_none.1 (hlast arg harg), rfl⟩
  | some value =>
      rw [List.getLast?_filterMap, List.findSome?_eq_some_iff] at hlast
      -- The arguments are searched from the last one backwards.
      obtain ⟨after, arg, before, hargs, hgives, hafter⟩ := hlast
      refine .inl ⟨before.reverse, arg, after.reverse, ?_, settingOf?_eq_some.1 hgives, ?_⟩
      · rw [← List.reverse_reverse args, hargs]
        simp
      · intro later hlater
        exact settingOf?_eq_none.1 (hafter later (List.mem_reverse.1 hlater))

/-- The argument spells a flag or does not look like one. -/
def IsUnderstood (arg : String) : Prop := isFlag arg = true → ∃ flag, Flag.Spells arg flag

theorem flawOf?_eq_none {arg : String} : flawOf? arg = none ↔ IsUnderstood arg := by
  unfold flawOf? IsUnderstood
  by_cases hflag : isFlag arg = true
  · simp only [hflag, if_true, forall_const, ← Flag.parse_eq_ok]
    cases Flag.parse arg <;> simp
  · simp [hflag]

theorem flawOf?_eq_some {arg : String} {e : OptionError} :
    flawOf? arg = some e ↔ Options.parseArgs [arg] = .error e := by
  rw [Options.parseArgs_eq_error, List.findSome?_singleton]

/-- What is taken from two neighbours of which one has nothing does not depend on their order. -/
theorem filterMap_exchange {α β : Type} {f : α → Option β} {a b : α} (before after : List α)
    (h : f a = none ∨ f b = none) :
    (before ++ b :: a :: after).filterMap f = (before ++ a :: b :: after).filterMap f := by
  rw [List.filterMap_append, List.filterMap_append]
  rcases h with h | h <;> simp [List.filterMap_cons, h]

/-- The result of an argument list does not depend on the order in which options are given.  All
arguments are read if each one that starts with two dashes spells a flag, and otherwise the first
one that does not is reported as it would be on its own.  The positional arguments keep their order,
each option has the value that was given last or its default, and so two neighbours may be exchanged
unless both are positional or both set the same option. -/
theorem parseArgs_order (args : List String) :
    ((∃ result, Options.parseArgs args = .ok result) ↔ ∀ arg ∈ args, IsUnderstood arg) ∧
    (∀ e, Options.parseArgs args = .error e ↔
      ∃ before arg after, args = before ++ arg :: after ∧ Options.parseArgs [arg] = .error e ∧
        ∀ earlier ∈ before, IsUnderstood earlier) ∧
    (∀ positionals o, Options.parseArgs args = .ok (positionals, o) →
      positionals = args.filter (fun arg => !isFlag arg) ∧ ∀ k, IsLastGiven k args (o.get k)) ∧
    ∀ before a b after, args = before ++ a :: b :: after → isFlag a = true ∨ isFlag b = true →
      (∀ k, ¬Sets k a ∨ ¬Sets k b) →
      ∀ result, Options.parseArgs args = .ok result →
        Options.parseArgs (before ++ b :: a :: after) = .ok result := by
  refine ⟨?_, fun e => ?_, fun positionals o h => ?_, ?_⟩
  · simp only [Options.parseArgs_eq_ok, flawOf?_eq_none, exists_and_left, exists_eq, and_true]
  · rw [Options.parseArgs_eq_error, List.findSome?_eq_some_iff]
    simp only [flawOf?_eq_some, flawOf?_eq_none]
  · have hresult := (Options.parseArgs_eq_ok.1 h).2
    exact ⟨(Prod.mk.inj hresult).1, isLastGiven_of_parseArgs h⟩
  · rintro before a b after rfl hflag hsetting ⟨positionals, o⟩ h
    obtain ⟨hall, hresult⟩ := Options.parseArgs_eq_ok.1 h
    -- The exchanged list has the same arguments, so it is read as well.
    have hall' : ∀ arg ∈ before ++ b :: a :: after, flawOf? arg = none := by
      intro arg harg
      exact hall arg (by simpa [or_left_comm] using harg)
    have hread := Options.parseArgs_eq_ok.2 ⟨hall', rfl⟩
    rw [hread]
    have hpositionals : positionalsOf (before ++ b :: a :: after) = positionals := by
      rw [(Prod.mk.inj hresult).1, positionalsOf, positionalsOf, ← List.filterMap_eq_filter]
      refine filterMap_exchange before after ?_
      rcases hflag with h | h <;> simp [Option.guard, h]
    have hoptions : ((before ++ b :: a :: after).filterMap flagOf?).foldl Options.set .default =
        o := by
      refine Options.ext_get fun k => ?_
      have hone : settingOf? k a = none ∨ settingOf? k b = none :=
        (hsetting k).imp settingOf?_eq_none.2 settingOf?_eq_none.2
      rw [Options.get_of_parseArgs hread, Options.get_of_parseArgs h,
        filterMap_exchange before after hone]
    rw [hpositionals, hoptions]

/-- The depth is given twice and the last one counts; the file may stand behind the discipline as
well.  A depth of zero is reported, not the unknown flag behind it. -/
theorem parseArgs_order_repeated :
    let o : Options := ⟨⟨⟨⟨.need, .value⟩, some 5⟩, 1000⟩, .lexical, false⟩
    let args := ["--max-depth=NONE", "sum.jam", "--args=Need", "--max-depth=+5"]
    Options.parseArgs args = .ok (["sum.jam"], o) ∧
      IsLastGiven .maxDepth args (some 5 : Option Nat) ∧
      Options.parseArgs ["--max-depth=NONE", "--args=Need", "sum.jam", "--max-depth=+5"] =
        .ok (["sum.jam"], o) ∧
      Options.parseArgs ["sum.jam", "--max-depth=0", "--fast"] =
        .error (.invalidValue "--max-depth" "0" "a positive integer or `none`") := by
  intro o args
  have hread : Options.parseArgs args = .ok (["sum.jam"], o) := by with_unfolding_all rfl
  have hfile : isFlag "sum.jam" = false := rfl
  obtain ⟨-, -, hgiven, hexchange⟩ := parseArgs_order args
  obtain ⟨-, herror, -, -⟩ := parseArgs_order ["sum.jam", "--max-depth=0", "--fast"]
  have hzero : Options.parseArgs ["--max-depth=0"] =
      .error (.invalidValue "--max-depth" "0" "a positive integer or `none`") := by
    with_unfolding_all rfl
  refine ⟨hread, (hgiven _ _ hread).2 .maxDepth, ?_,
    (herror _).2 ⟨["sum.jam"], "--max-depth=0", ["--fast"], rfl, hzero, ?_⟩⟩
  · refine hexchange ["--max-depth=NONE"] "sum.jam" "--args=Need" ["--max-depth=+5"] rfl (.inr rfl)
      (fun k => .inl fun hsets => ?_) _ hread
    exact Bool.eq_false_iff.1 hfile hsets.isFlag
  · intro earlier hearlier hflag
    rw [List.mem_singleton.1 hearlier] at hflag
    exact absurd hflag (Bool.eq_false_iff.1 hfile)

end PolicyEval
