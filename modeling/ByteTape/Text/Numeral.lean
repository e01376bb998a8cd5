/-! Unsigned decimal numerals with an upper bound. -/
namespace ByteTape.Text

inductive NumeralError where
  | empty
  | invalidDigit
  | tooLarge
  deriving DecidableEq

def NumeralError.message : NumeralError → String
  | empty => "cannot parse integer from empty string"
  | invalidDigit => "invalid digit found in string"
  | tooLarge => "number too large to fit in target type"

namespace Numeral

/-- Numbers are held in 64 bits. -/
def bound : Nat := Nat.pow 2 64

def digit? (c : Char) : Option Nat :=
  if c.isDigit then some (c.toNat - '0'.toNat) else none

/-- Read digits from the left onto `n`. The first character that is no digit, or
that takes the number to the bound, decides the error. -/
def digits (n : Nat) : List Char → Except NumeralError Nat
  | [] => .ok n
  | c :: rest =>
    match digit? c with
    | none => .error .invalidDigit
    | some d => if n * 10 + d < bound then digits (n * 10 + d) rest else .error .tooLarge

/-- Read a numeral: one plus sign at most, then at least one digit. -/
def read : List Char → Except NumeralError Nat
  | [] => .error .empty
  | ['+'] => .error .invalidDigit
  | '+' :: rest => digits 0 rest
  | cs => digits 0 cs

end Numeral
end ByteTape.Text
