import PolicyEval.Program

/-!
# Files and outputs of the command line

* `FileContent` — what reading a path gives.
* `Output` — what a command line prints and the status it ends with.
-/

namespace PolicyEval

/-- What reading a path gives. -/
inductive FileContent where
  /-- The text of a file. -/
  | text (s : String)
  /-- There is nothing at the path. -/
  | missing
  /-- The file may not be read. -/
  | denied
  /-- The file is not a text in UTF-8. -/
  | notText
  /-- Reading fails for another reason; `present` says whether there is something at the path. -/
  | failed (reason : String) (present : Bool)
deriving DecidableEq

namespace FileContent

/-- Whether there is something at the path. -/
def isPresent : FileContent → Bool
  | missing => false
  | failed _ present => present
  | _ => true

/-- The text at a path, or the message that it cannot be read. -/
def read (path : String) : FileContent → Except String String
  | text s => .ok s
  | missing => .error s!"cannot find file '{path}'"
  | denied => .error s!"permission denied reading '{path}'"
  | notText => .error s!"'{path}' contains invalid UTF-8 data"
  | failed reason _ => .error s!"error reading '{path}': {reason}"

end FileContent

/-- What is written on the error channel: lines, or a report on a failure in a source. -/
inductive ErrorOutput where
  | text (s : String)
  | report (d : Diagnostic) (file source : String)
deriving DecidableEq

namespace ErrorOutput

/-- A label of a report in one line. -/
def labelLine (source : String) (l : Label) : String :=
  let position := Position.ofOffset source l.span.start
  s!"  {position.line}:{position.column}: {l.text}"

/-- What is printed on the error channel.  A report names its place, its labels and its notes. -/
def print : ErrorOutput → String
  | text s => s
  | report d file source =>
    let place := (d.location? file source).toList.map fun place => s!"  at {place}"
    let notes := d.notes.map fun note => s!"  note: {note}"
    let lines := [d.header] ++ place ++ d.labels.map (labelLine source) ++ notes
    String.join (lines.map fun line => line ++ "\n")

end ErrorOutput

/-- What a command line prints and the status it ends with. -/
structure Output where
  status : Nat
  stdout : String
  stderr : ErrorOutput
deriving DecidableEq

namespace Output

/-- A success that prints a text. -/
def success (stdout : String) : Output := ⟨0, stdout, .text ""⟩

/-- A failure that prints lines on the error channel. -/
def failure (lines : List String) : Output :=
  ⟨1, "", .text (String.join (lines.map fun line => line ++ "\n"))⟩

/-- A failure with a message. -/
def error (message : String) : Output := failure [s!"error: {message}"]

/-- A failure with a report. -/
def problem (p : Problem) (file source : String) : Output :=
  ⟨1, "", .report p.diagnostic file source⟩

end Output

end PolicyEval
