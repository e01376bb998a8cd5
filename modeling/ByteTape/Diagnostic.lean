import ByteTape.Error
import ByteTape.Program

/-! How a failure is shown: a headline, and for a failure with a position a window
of the program around it with a caret underneath. -/
namespace ByteTape.Diagnostic

def isControl (c : Char) : Bool := c.toNat < 0x20 || (0x7F ≤ c.toNat && c.toNat < 0xA0)

/-- Line breaks and their like become spaces, so that a window stays one line. -/
def shown (c : Char) : Char := if isControl c then ' ' else c

def reach : Nat := 32

def window (code : List Char) (pos : Nat) : List Char :=
  ((code.drop (pos - reach)).take (pos - (pos - reach) + reach + 1)).map shown

def caret (pos : Nat) : List Char := List.replicate (pos - (pos - reach)) ' ' ++ ['^']

def withContext (headline : String) (code : List Char) (pos : Nat) : String :=
  s!"{headline}\n  {String.ofList (window code pos)}\n  {String.ofList (caret pos)}\n"

def paint (terminal : Bool) (message : String) : String :=
  if terminal then "\x1b[1;31m" ++ message ++ "\x1b[0m" else message

def ofRunError (terminal : Bool) (name : String) (code : List Char) (e : RunError) : String :=
  let headline := s!"{name}: {paint terminal e.message}"
  match e.ip? with
  | some ip => withContext headline code ip
  | none => headline ++ "\n"

def ofLoadError (terminal : Bool) (name : String) (e : LoadError) : String :=
  s!"{name}: {paint terminal e.message}\n"

end ByteTape.Diagnostic
