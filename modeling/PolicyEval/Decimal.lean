/-!
# Decimal numerals

Reading natural numbers and integers from decimal digits.
-/

namespace PolicyEval

/-- The value of a sequence of decimal digits. -/
def decimalValue (ds : List Char) : Nat :=
  ds.foldl (fun n d => 10 * n + (d.toNat - '0'.toNat)) 0

/-- The number that a text of one or more decimal digits denotes. -/
def natural? (ds : List Char) : Option Nat :=
  if ds.isEmpty || !ds.all Char.isDigit then none else some (decimalValue ds)

/-- The number of words of 64 bits; a count is less. -/
def countBound : Nat := 18446744073709551616

/-- The count that a text denotes: digits, with a plus sign or without, that fit a word of 64
bits. -/
def count? (s : String) : Option Nat :=
  let value? :=
    match s.toList with
    | '+' :: ds => natural? ds
    | ds => natural? ds
  value?.filter fun n => decide (n < countBound)

/-- The integer that a text denotes: digits, with a sign or without. -/
def integer? (s : String) : Option Int :=
  match s.toList with
  | '+' :: ds => (natural? ds).map Int.ofNat
  | '-' :: ds => (natural? ds).map fun n => -Int.ofNat n
  | ds => (natural? ds).map Int.ofNat

end PolicyEval
