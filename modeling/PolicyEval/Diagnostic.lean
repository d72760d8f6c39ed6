import PolicyEval.ErrorCode
import PolicyEval.Position
import PolicyEval.Span

/-!
# Diagnostics — what is reported about a failure, and where

A diagnostic is a code, a message, labelled spans of the source and notes.  It does not depend on
how it is displayed; its one-line form, the header of a report and the line and column of a report
are computed here.

* `Diagnostic.summary` — the one-line form, `error[E3005]: division by zero`.
* `Diagnostic.header` — the first line of a report.
* `Diagnostic.location?` — the `file:line:column` of a report.
-/

namespace PolicyEval

/-- A span of the source with a short remark.  The primary label marks where the failure is. -/
structure Label where
  span : Span
  text : String
  primary : Bool
deriving DecidableEq

/-- A report on one failure. -/
structure Diagnostic where
  code : ErrorCode
  message : String
  labels : List Label
  notes : List String
deriving DecidableEq

namespace Diagnostic

/-- A diagnostic with the given code and message, without labels and notes. -/
def new (code : ErrorCode) (message : String) : Diagnostic := ⟨code, message, [], []⟩

/-- Adds a label where the failure is. -/
def withPrimary (d : Diagnostic) (span : Span) (text : String) : Diagnostic :=
  { d with labels := d.labels ++ [⟨span, text, true⟩] }

/-- Adds a label on a related place. -/
def withSecondary (d : Diagnostic) (span : Span) (text : String) : Diagnostic :=
  { d with labels := d.labels ++ [⟨span, text, false⟩] }

/-- Adds a note. -/
def withNote (d : Diagnostic) (note : String) : Diagnostic :=
  { d with notes := d.notes ++ [note] }

/-- The span of the first primary label. -/
def primarySpan? (d : Diagnostic) : Option Span :=
  (d.labels.find? Label.primary).map Label.span

/-- The one-line form. -/
def summary (d : Diagnostic) : String := s!"error[{d.code.text}]: {d.message}"

/-- The first line of a text.  It ends before a line feed or at the end of the text, and one carriage
return right before that end belongs to the end. -/
def firstLine : List Char → List Char
  | [] | ['\r'] | '\n' :: _ | '\r' :: '\n' :: _ => []
  | c :: rest => c :: firstLine rest

/-- The first line of a report; of a message with several lines it shows the first. -/
def header (d : Diagnostic) : String :=
  s!"[{d.code.text}] Error: {String.ofList (firstLine d.message.toList)}"

/-- The place that a report names: the start of the primary span, or the start of the source if no
label is primary.  Without a label, or about an empty source, a report names no place. -/
def location? (d : Diagnostic) (file source : String) : Option String :=
  if d.labels.isEmpty || source.isEmpty then none
  else
    let position := Position.ofOffset source ((d.primarySpan?.map Span.start).getD 0)
    some s!"{file}:{position.line}:{position.column}"

end Diagnostic

end PolicyEval
