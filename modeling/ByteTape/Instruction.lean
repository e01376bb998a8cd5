/-! The eight instructions of the tape language and their one-character symbols.
Every other character of a program is a comment. -/
namespace ByteTape

inductive Instruction where
  | right
  | left
  | increment
  | decrement
  | write
  | read
  | loopOpen
  | loopClose
  deriving DecidableEq

namespace Instruction

def symbol : Instruction → Char
  | right => '>'
  | left => '<'
  | increment => '+'
  | decrement => '-'
  | write => '.'
  | read => ','
  | loopOpen => '['
  | loopClose => ']'

def ofChar? : Char → Option Instruction
  | '>' => some right
  | '<' => some left
  | '+' => some increment
  | '-' => some decrement
  | '.' => some write
  | ',' => some read
  | '[' => some loopOpen
  | ']' => some loopClose
  | _ => none

@[simp] theorem ofChar?_symbol (i : Instruction) : ofChar? i.symbol = some i := by
  cases i <;> rfl

theorem ofChar?_eq_some_iff {c : Char} {i : Instruction} :
    ofChar? c = some i ↔ c = i.symbol := by
  constructor
  · intro h
    unfold ofChar? at h
    split at h <;> simp_all [symbol] <;> subst h <;> rfl
  · rintro rfl
    exact ofChar?_symbol i

end Instruction
end ByteTape
