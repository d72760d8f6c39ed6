import PolicyEval.Span
import PolicyEval.Name
import PolicyEval.Operator

/-!
# Tokens

The words and signs of which a program consists.  A word is a keyword, a constant, a primitive or,
if it is none of these, an identifier (`Sign.ofWord?`).  The end of the input is not a token; a
`TokenList` keeps its span beside the tokens.

* `Sign` — what a token says, without its place in the source.
* `Token` — a sign with its text and its span.
* `TokenList.listing` — the tokens of a source, one line each.
-/

namespace PolicyEval

/-- The reserved words that structure a program. -/
inductive Keyword where
  | ifWord | thenWord | elseWord | letWord | inWord | mapWord | toWord
deriving DecidableEq, Inhabited

namespace Keyword

/-- All reserved words. -/
def all : List Keyword := [ifWord, thenWord, elseWord, letWord, inWord, mapWord, toWord]

/-- The written form of a reserved word. -/
def text : Keyword → String
  | ifWord => "if"
  | thenWord => "then"
  | elseWord => "else"
  | letWord => "let"
  | inWord => "in"
  | mapWord => "map"
  | toWord => "to"

/-- The reserved word with the given written form. -/
def ofText? (s : String) : Option Keyword := all.find? fun k => k.text == s

end Keyword

/-- What a token says.  The signs `+` and `-` are binary operators here; a parser that expects an
operand reads them as unary ones. -/
inductive Sign where
  | int (value : Nat)
  | ident (name : Name)
  | prim (p : Prim)
  | bool (b : Bool)
  | null
  | keyword (k : Keyword)
  | operator (op : BinaryOp)
  | tilde
  | define
  | openParen
  | closeParen
  | comma
  | semicolon
deriving DecidableEq, Inhabited

namespace Sign

/-- The sign that a word stands for, if it is not an identifier. -/
def ofWord? (w : String) : Option Sign :=
  match Keyword.ofText? w with
  | some k => some (.keyword k)
  | none =>
    if w = "true" then some (.bool true)
    else if w = "false" then some (.bool false)
    else if w = "null" then some .null
    else (Prim.ofName? w).map .prim

/-- The name of a sign in listings: integers and identifiers by their class, all other signs by
their written form. -/
def className : Sign → String
  | int _ => "integer"
  | ident _ => "identifier"
  | prim p => p.name
  | bool true => "true"
  | bool false => "false"
  | null => "null"
  | keyword k => k.text
  | operator op => op.symbol
  | tilde => "~"
  | define => ":="
  | openParen => "("
  | closeParen => ")"
  | comma => ","
  | semicolon => ";"

/-- The name of a sign in listings, except that an integer is shown by its value. -/
def display : Sign → String
  | int n => toString n
  | s => s.className

/-- The phrase for a sign that was found where another one was expected. -/
def describe : Sign → String
  | int n => s!"integer `{n}`"
  | ident name => s!"identifier `{name.text}`"
  | prim p => s!"primitive `{p.name}`"
  | s => s!"`{s.className}`"

end Sign

/-- A sign at its place in the source, with the text it was read from. -/
structure Token where
  sign : Sign
  text : String
  span : Span
deriving DecidableEq

/-- The tokens of a source in order, the span of its end, and the names of its identifiers. -/
structure TokenList where
  tokens : List Token
  stop : Span
  names : Interner
deriving DecidableEq

namespace TokenList

/-- The name of the end of the input in listings. -/
def endName : String := "end of input"

/-- Fills a text with blanks on the right up to the given width. -/
def padRight (width : Nat) (s : String) : String :=
  s ++ String.ofList (List.replicate (width - s.length) ' ')

/-- One line of a listing: span, class and text in columns.  A line without a text ends after the
class. -/
def listingLine (span : Span) (className text : String) : String :=
  if text.isEmpty then padRight 10 span.text ++ " " ++ className ++ "\n"
  else padRight 10 span.text ++ " " ++ padRight 12 className ++ " " ++ text ++ "\n"

/-- The tokens one line each, the end of the input last. -/
def listing (ts : TokenList) : String :=
  String.join (ts.tokens.map fun t => listingLine t.span t.sign.className t.text) ++
    listingLine ts.stop endName ""

/-- The number of lines of the listing. -/
def lineCount (ts : TokenList) : Nat := ts.tokens.length + 1

end TokenList

end PolicyEval
