import PolicyEval.Command.Output
import PolicyEval.Command.Usage
import PolicyEval.ErrorCode.Explanation
import PolicyEval.Options

/-!
# The command line

What a command line does, given what its files hold: it is understood as a command, and the command
has an output.  Nothing here reads files or prints.

* `Command` — what a command line can ask for.
* `Command.ofArgs` — the command that an argument list is.
* `Command.perform` — the output of a command.
* `commandLine` — the output of an argument list.
-/

namespace PolicyEval

/-- What a command line can ask for. -/
inductive Command where
  /-- Evaluate the program in a file and print its value. -/
  | run (path : String) (o : Options)
  /-- Evaluate a program given on the command line. -/
  | eval (source : String) (o : Options)
  /-- Evaluate the program in a file under all nine policies. -/
  | all (path : String) (o : Options)
  /-- Check the program in a file. -/
  | check (path : String) (o : Options)
  /-- Print the program in a file. -/
  | parse (path : String)
  /-- List the tokens of a file. -/
  | lex (path : String)
  /-- Explain an error code. -/
  | explain (code : String)
  /-- Show the help text. -/
  | help
  /-- Show the version. -/
  | version
  /-- A word that is neither a command nor a file. -/
  | unknown (word : String)
deriving DecidableEq

namespace Command

/-- A command with options and exactly one positional argument. -/
def withOne (usage : String) (args : List String) (make : String → Options → Command) :
    Except Output Command :=
  match Options.parseArgs args with
  | .error e => .error (.error e.message)
  | .ok ([one], o) => .ok (make one o)
  | .ok _ => .error (.failure [usage])

/-- A command with one argument; further arguments are ignored. -/
def withFirst (usage : List String) (args : List String) (make : String → Command) :
    Except Output Command :=
  match args with
  | first :: _ => .ok (make first)
  | [] => .error (.failure usage)

/-- A file to run, with its policy in words. -/
def runFile (path : String) (args : List String) : Except Output Command :=
  match Options.parseArgs args with
  | .error e => .error (.error e.message)
  | .ok (words, o) =>
    match o.withPolicyWords words with
    | (o, .ok ()) => .ok (.run path o)
    | (_, .error e) => .error (.error e.message)

/-- The command that an argument list is, or the output that says why it is none.  A first word that
is no command is a file to run if there is such a file or if it looks like one. -/
def ofArgs (files : String → FileContent) (argv : List String) : Except Output Command :=
  match argv with
  | [] => .ok .help
  | word :: args =>
    match word with
    | "run" => withOne "Usage: jam run <file.jam> [options]" args .run
    | "eval" => withOne "Usage: jam eval '<source>' [options]" args .eval
    | "all" =>
      withOne "Usage: jam all <file.jam> [--max-depth=N|none] [--print-depth=N]" args .all
    | "check" => withOne "Usage: jam check <file.jam> [--flat-scopes]" args .check
    | "parse" => withFirst ["Usage: jam parse <file.jam>"] args .parse
    | "lex" => withFirst ["Usage: jam lex <file.jam>"] args .lex
    | "--explain" | "explain" =>
      withFirst ["Usage: jam --explain <error-code>", "Example: jam --explain E3008"] args .explain
    | "help" | "--help" | "-h" => .ok .help
    | "version" | "--version" | "-v" => .ok .version
    | path =>
      if (files path).isPresent || path.endsWith ".jam" then runFile path args
      else .ok (.unknown path)

/-- Goes on with the text of a file. -/
def withFile (files : String → FileContent) (path : String) (next : String → Output) : Output :=
  match (files path).read path with
  | .ok source => next source
  | .error message => .error message

/-- The output for an evaluation that did not end within its fuel. -/
def outOfFuel : Output := .error "evaluation did not end"

/-- Evaluates a source and prints its value, and its profile if asked to. -/
def runNamed (fuel : Nat) (file source : String) (o : Options) : Output :=
  match runSource fuel o.mode o.config source with
  | .error p => .problem p file source
  | .ok r =>
    match r.result with
    | .ok text => ⟨0, text ++ "\n", .text (if o.stats then r.profile.report ++ "\n" else "")⟩
    | .error (.fault f) => .problem (.fault f) file source
    | .error .outOfFuel => outOfFuel

/-- Evaluates a source under all nine policies, one line each. -/
def runAllNamed (fuel : Nat) (file source : String) (o : Options) : Output :=
  match PolicyEval.runAll fuel o.mode o.config source with
  | .error p => .problem p file source
  | .ok outcomes =>
    match outcomes.mapM fun (policy, result) => outcomeLine? policy result with
    | none => outOfFuel
    | some lines =>
      let succeeded := outcomes.all fun (_, result) => result.isOk
      ⟨if succeeded then 0 else 1, String.join (lines.map fun line => line ++ "\n"), .text ""⟩

/-- Lists the tokens of a source. -/
def lexNamed (file source : String) : Output :=
  match TokenList.ofSource source with
  | .error e => .problem (.unreadable (.lex e)) file source
  | .ok ts => .success (s!"Tokens for '{file}' ({ts.lineCount} tokens):\n" ++ ts.listing)

/-- Prints a source back. -/
def parseNamed (file source : String) : Output :=
  match Expr.ofSource source with
  | .error e => .problem (.unreadable e) file source
  | .ok e => .success (e.print ++ "\n")

/-- Checks a source. -/
def checkNamed (file source : String) (o : Options) : Output :=
  match readProgram o.mode source with
  | .error p => .problem p file source
  | .ok _ => .success "ok\n"

/-- Explains an error code. -/
def explainCode (word : String) : Output :=
  match ErrorCode.ofText? word with
  | some code => .success (code.explanation ++ "\n")
  | none =>
    .failure [s!"Unknown error code: {word}", "",
      "Codes have the format EXXXX where X is a digit.",
      "Examples: E0001, E1001, E2001, E3008"]

/-- The output of a command. -/
def perform (fuel : Nat) (files : String → FileContent) : Command → Output
  | run path o => withFile files path fun source => runNamed fuel path source o
  | eval source o => runNamed fuel "<eval>" source o
  | all path o => withFile files path fun source => runAllNamed fuel path source o
  | check path o => withFile files path fun source => checkNamed path source o
  | parse path => withFile files path fun source => parseNamed path source
  | lex path => withFile files path fun source => lexNamed path source
  | explain code => explainCode code
  | help => .success usageText
  | version => .success versionText
  | unknown word => ⟨1, usageText, .text s!"Unknown command: {word}\n\n"⟩

end Command

/-- The output of a command line. -/
def commandLine (fuel : Nat) (files : String → FileContent) (argv : List String) : Output :=
  match Command.ofArgs files argv with
  | .ok command => command.perform fuel files
  | .error output => output

end PolicyEval
