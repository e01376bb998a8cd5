/-! The policies of a run. -/
namespace ByteTape

inductive EofPolicy where
  /-- The run ends. -/
  | error
  /-- The current cell becomes 0. -/
  | zero
  /-- The current cell stays as it is. -/
  | unchanged
  deriving DecidableEq

/-- Without `maxSteps` a run may go on for ever. With `trace` every executed
instruction is written to a table. -/
structure Config where
  eof : EofPolicy := .error
  maxSteps : Option Nat := none
  trace : Bool := false
  deriving DecidableEq

def EofPolicy.name : EofPolicy → String
  | error => "error"
  | zero => "zero"
  | unchanged => "unchanged"

end ByteTape
