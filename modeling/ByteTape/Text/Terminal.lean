import ByteTape.Text.Utf8

/-! Text for terminals: styles are escape sequences in the text, and a stream that
is no terminal gets the text without them. Whatever else a terminal would obey and
not show is left out with them. -/
namespace ByteTape.Text.Terminal

inductive Style where
  | error
  | title
  | literal
  | valid
  | invalid
  deriving DecidableEq

def Style.on : Style → String
  | error => "\x1b[1m\x1b[31m"
  | title => "\x1b[1m\x1b[4m"
  | literal => "\x1b[1m"
  | valid => "\x1b[32m"
  | invalid => "\x1b[33m"

def Style.apply (s : Style) (text : String) : String := s.on ++ text ++ "\x1b[0m"

inductive State where
  /-- In no sequence. -/
  | ground
  /-- After the escape byte. -/
  | escape
  /-- In a short sequence with intermediate bytes. -/
  | intermediate
  /-- In a control sequence. -/
  | control
  /-- At the head of a device control string: nothing of the head read yet, its
  numbers, its intermediate bytes. -/
  | deviceEntry
  | deviceNumber
  | deviceIntermediate
  /-- In a string that the byte 9C ends. -/
  | string
  /-- In a system command, which the bell ends. -/
  | command
  deriving DecidableEq

def isSpace (b : UInt8) : Bool := b == 0x09 || b == 0x0A || b == 0x0C || b == 0x0D

def followers (b : UInt8) : Nat :=
  match Utf8.lead b with
  | .multi p => p.missing
  | _ => 0

/-- Whether a byte is shown, or begins a character that is. Inside strings and
commands nothing is. -/
def shows : State → UInt8 → Bool
  | .ground, b => isSpace b || (0x20 ≤ b && b < 0x7F) || 0 < followers b
  | .escape, b | .intermediate, b | .control, b => isSpace b
  | _, _ => false

def opened (b : UInt8) : State :=
  if b < 0x20 then .escape
  else if b < 0x30 then .intermediate
  else if b = 0x50 then .deviceEntry
  else if b = 0x5B then .control
  else if b = 0x5D then .command
  else if b = 0x58 ∨ b = 0x5E ∨ b = 0x5F then .string
  else if b < 0x7F then .ground
  else .escape

/-- The state after a byte. Everywhere a cancelling byte ends a sequence, and the
escape byte begins one. -/
def next (s : State) (b : UInt8) : State :=
  if b = 0x18 ∨ b = 0x1A then .ground
  else if b = 0x1B then .escape
  else match s with
    | .ground => .ground
    | .escape => opened b
    | .intermediate => if 0x30 ≤ b ∧ b < 0x7F then .ground else s
    | .control => if 0x40 ≤ b ∧ b < 0x7F then .ground else s
    | .deviceEntry =>
      if b < 0x20 ∨ 0x7F ≤ b then s
      else if b < 0x30 then .deviceIntermediate
      else if b < 0x40 then .deviceNumber
      else .string
    | .deviceNumber =>
      if b < 0x20 ∨ 0x7F ≤ b then s
      else if b < 0x30 then .deviceIntermediate
      else if b < 0x3C then s
      else .string
    | .deviceIntermediate => if b < 0x30 ∨ 0x7F ≤ b then s else .string
    | .string => if b = 0x9C then .ground else s
    | .command => if b = 0x07 then .ground else s

structure Sieve where
  shown : Array UInt8
  state : State
  /-- Whether the last byte was shown. -/
  showing : Bool
  /-- The bytes still missing of the character that is being shown. -/
  missing : Nat
  deriving DecidableEq

namespace Sieve

def initial : Sieve := ⟨#[], .ground, false, 0⟩

/-- Take one byte. White space inside a sequence is shown, and so is the plain text
after it, up to a byte that is not shown; there the sequence goes on. -/
def feed (d : Sieve) (b : UInt8) : Sieve :=
  if 0 < d.missing then
    { d with shown := d.shown.push b, missing := d.missing - 1 }
  else if shows (if d.showing then .ground else d.state) b then
    { shown := d.shown.push b
      state := if 0 < followers b then .ground else d.state
      showing := true
      missing := followers b }
  else
    { d with state := next d.state b, showing := false }

end Sieve

def shownBytes (bytes : List UInt8) : List UInt8 :=
  (bytes.foldl Sieve.feed Sieve.initial).shown.toList

def plain (text : String) : String :=
  String.ofList (Utf8.decodeLossy (shownBytes (Utf8.encode text.toList)))

end ByteTape.Text.Terminal
