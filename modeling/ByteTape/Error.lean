/-! Why things fail: a stream operation, a step of a run, the reading of a
program file, an index out of range. Each cause has its one wording. -/
namespace ByteTape

structure IndexError where
  size : Nat
  index : Nat
  deriving DecidableEq

def IndexError.message (e : IndexError) : String :=
  s!"index out of bounds: the len is {e.size} but the index is {e.index}"

inductive StreamError.Kind where
  | other
  | notFound
  | permissionDenied
  | brokenPipe
  | wouldBlock
  | interrupted
  | unexpectedEnd
  | writeZero
  | timedOut
  | invalidData
  deriving DecidableEq

structure StreamError where
  kind : StreamError.Kind
  text : String
  deriving DecidableEq

namespace StreamError

def Kind.text : Kind → String
  | other => "other error"
  | notFound => "entity not found"
  | permissionDenied => "permission denied"
  | brokenPipe => "broken pipe"
  | wouldBlock => "operation would block"
  | interrupted => "operation interrupted"
  | unexpectedEnd => "unexpected end of file"
  | writeZero => "write zero"
  | timedOut => "timed out"
  | invalidData => "invalid data"

def ofKind (k : Kind) : StreamError := ⟨k, k.text⟩

def incomplete : StreamError := ⟨.writeZero, "failed to write whole buffer"⟩

def ofSystem (text : String) (number : Nat) : StreamError :=
  ⟨.other, s!"{text} (os error {number})"⟩

def noSuchFile : StreamError := ofSystem "No such file or directory" 2
def notADirectory : StreamError := ofSystem "Not a directory" 20
def isADirectory : StreamError := ofSystem "Is a directory" 21
def noSpaceLeft : StreamError := ofSystem "No space left on device" 28
def nameTooLong : StreamError := ofSystem "File name too long" 36

/-- A zero byte ends a name for the system, so no name can hold one. -/
def zeroInName : StreamError := ⟨.other, "file name contained an unexpected NUL byte"⟩

end StreamError

inductive BracketSide where
  | opening
  | closing
  deriving DecidableEq

def BracketSide.text : BracketSide → String
  | opening => "'['"
  | closing => "']'"

inductive RunError where
  /-- A scan that began at `ip` ran off the program. -/
  | unmatchedBracket (ip : Nat) (side : BracketSide)
  /-- The pointer stood on cell 0 and was to move left. -/
  | pointerUnderflow (ip : Nat)
  /-- A read met the end of input under the policy that forbids it. -/
  | inputExhausted (ip : Nat)
  | stream (ip : Nat) (source : StreamError)
  | stepLimitExceeded (limit : Nat)
  | interrupted
  deriving DecidableEq

namespace RunError

def message : RunError → String
  | unmatchedBracket ip side => s!"unmatched {side.text} at instruction {ip}"
  | pointerUnderflow ip => s!"pointer moved left of cell 0 at instruction {ip}"
  | inputExhausted ip => s!"input exhausted at instruction {ip}"
  | stream ip source => s!"I/O error at instruction {ip}: {source.text}"
  | stepLimitExceeded limit => s!"execution aborted: step limit exceeded ({limit})"
  | interrupted => "execution aborted: interrupted"

/-- The instruction that the error points at; the run controls point at none. -/
def ip? : RunError → Option Nat
  | unmatchedBracket ip _ | pointerUnderflow ip | inputExhausted ip | stream ip _ => some ip
  | stepLimitExceeded _ | interrupted => none

end RunError

/-- What stops a machine: an error of the run, or a store out of range. -/
inductive Fault where
  | error (e : RunError)
  | outOfRange (e : IndexError)
  deriving DecidableEq

structure LoadError where
  path : String
  source : StreamError
  deriving DecidableEq

def LoadError.message (e : LoadError) : String :=
  s!"failed to read program file '{e.path}': {e.source.text}"

end ByteTape
