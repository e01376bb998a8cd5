import ByteTape.CommandLine.Arguments
import ByteTape.Config.File
import ByteTape.Diagnostic
import ByteTape.Program.File
import ByteTape.Run

/-! One use of the program, from its arguments to its exit status. -/
namespace ByteTape.CommandLine

structure Surroundings where
  arguments : List String
  home : String
  /-- The configuration directory, if one is named. -/
  configHome : Option String
  /-- The content of a file, or why there is none. -/
  file : String → Except StreamError (List UInt8)
  input : Source
  output : LineBuffered

structure Outcome where
  status : Nat
  stdout : List UInt8
  stderr : String
  deriving DecidableEq

structure Launch where
  machine : Machine
  notices : String

/-- Make a machine from what was read of the program file at `path` and of the
configuration file at `place`. It has a cancel flag, not yet set. -/
def launch (path place : String) (code policies : Except StreamError (List UInt8)) :
    Except LoadError Launch :=
  match Program.ofFile path code with
  | .error e => .error e
  | .ok program =>
    let (config, notices) := Config.ofFile place policies
    .ok ⟨{ Machine.new program config with cancel := some false }, String.join notices⟩

def exitStatus : Except Fault Unit → Nat
  | .ok () => 0
  | .error (.error .interrupted) => 130
  | .error (.error _) => 1
  | .error (.outOfRange _) => 101

/-- What is printed after a run. An interruption is no fault of the program and is
shown without colour. -/
def epilogue (terminal : Bool) (program : Program) : Except Fault Unit → String
  | .ok () => ""
  | .error (.error .interrupted) => s!"{programName}: {RunError.interrupted.message}\n"
  | .error (.error e) => Diagnostic.ofRunError terminal programName program.toList e
  | .error (.outOfRange e) => s!"{programName}: {e.message}\n"

def traceText (m : Machine) : String :=
  match m.tracer with
  | none => ""
  | some tracer => String.ofList (Text.Utf8.decodeLossy tracer.sink.stored.toList)

def Outcome.ofRun (notices : String) (x : Execution LineBuffered)
    (result : Except Fault Unit) : Outcome where
  status := exitStatus result
  stdout := x.output.device.stored.toList
  stderr := notices ++ traceText x.toMachine ++ epilogue false x.program result

/-- Run the program file at `path` under the configuration file at `place`, within `n`
ticks. A program file that cannot be read leaves its message and nothing else. -/
def runFile (n : Nat) (s : Surroundings) (path place : String) : Option Outcome :=
  match launch path place (s.file path) (s.file place) with
  | .error e => some ⟨1, [], Diagnostic.ofLoadError false programName e⟩
  | .ok ⟨machine, notices⟩ =>
    (machine.run n s.input s.output).map fun (x, result) => .ofRun notices x result

/-- The whole use of the program, with streams that are no terminals. There is no
outcome if `n` ticks do not suffice. -/
def session (n : Nat) (s : Surroundings) : Option Outcome :=
  match Request.read s.arguments with
  | .print text => some ⟨0, Text.Utf8.encode text.toList, ""⟩
  | .refuse e => some ⟨2, [], e.text⟩
  | .run path => runFile n s path (Config.location s.home s.configHome)

end ByteTape.CommandLine
