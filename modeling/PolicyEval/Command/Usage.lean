/-!
# Help and version texts
-/

namespace PolicyEval

/-- The version of the command. -/
def versionText : String := "jam 0.1.0\n"

/-- The lines of the help text. -/
def usageLines : List String :=
  ["Jam interpreter",
   "",
   "Usage: jam <command> [options]",
   "       jam <file.jam> [args] [lists]",
   "",
   "Commands:",
   "  run <file.jam>       Evaluate a program and print its value",
   "  eval '<source>'      Evaluate a program given inline",
   "  all <file.jam>       Evaluate under all nine policies",
   "  check <file.jam>     Parse and context-check only",
   "  parse <file.jam>     Print the program back as source",
   "  lex <file.jam>       Tokenize and display tokens",
   "  --explain <code>     Explain an error code (e.g., E3008)",
   "  help                 Show this help message",
   "  version              Show version information",
   "",
   "Evaluation options:",
   "  --args=<discipline>   Argument and let bindings: value, name, need",
   "  --lists=<discipline>  cons cells: value, name, need",
   "  --max-depth=<n|none>  Recursion limit (default: 100000)",
   "  --print-depth=<n>     Elide lists longer or deeper than n (default: 1000)",
   "  --flat-scopes         Use the flat context check",
   "  --stats               Print an evaluation profile to stderr",
   "",
   "Logging:",
   "  RUST_LOG=jam_eval=debug   Enable tracing for a crate",
   "  JAM_LOG_TREE=1            Indent trace output by span",
   "",
   "Examples:",
   "  jam run demos/append.jam --args=need --lists=need",
   "  jam demos/streams.jam name need",
   "  jam all demos/streams.jam --max-depth=2000",
   "  jam eval 'let x := 6; in x * 7'"]

/-- The help text. -/
def usageText : String := String.join (usageLines.map fun line => line ++ "\n")

end PolicyEval
