import ByteTape.Machine

/-! Whole runs. A run takes ticks until one ends it, then flushes the output and
the tracer, however it ended. A program may loop for ever, so a run is given the
number of ticks that it may take and has no result if these do not suffice. -/
namespace ByteTape
namespace Execution

variable {σ : Type} [ByteOutput σ]

def ticks : Nat → Execution σ → Progress σ
  | 0, x => .running x
  | n + 1, x =>
    match x.tick with
    | .running y => ticks n y
    | .ended y result => .ended y result

def flushTracer (x : Execution σ) : Execution σ × Except StreamError Unit :=
  match x.tracer with
  | none => (x, .ok ())
  | some tracer =>
    match tracer.flush with
    | (tracer, outcome) => ({ x with tracer := some tracer }, outcome)

/-- The result of a run that came to `result`, given what the last flushes said:
the run's own error first, then the output's, then the tracer's. -/
def settle (ip : Nat) (result : Except Fault Unit) (flushed traced : Except StreamError Unit) :
    Except Fault Unit :=
  match result, flushed, traced with
  | .error e, _, _ => .error e
  | .ok (), .error e, _ => .error (.error (.stream ip e))
  | .ok (), .ok (), .error e => .error (.error (.stream ip e))
  | .ok (), .ok (), .ok () => .ok ()

/-- End a run: flush the output, then the tracer. A store out of range is no way
to end a run, so nothing is flushed after it. -/
def conclude (x : Execution σ) (result : Except Fault Unit) :
    Execution σ × Except Fault Unit :=
  match result with
  | .error (.outOfRange e) => (x, .error (.outOfRange e))
  | result =>
    match ByteOutput.flush x.output with
    | (output, flushed) =>
      match { x with output := output }.flushTracer with
      | (x, traced) => (x, settle x.ip result flushed traced)

end Execution

namespace Machine

variable {σ : Type} [ByteOutput σ]

def start (m : Machine) (input : Source) (output : σ) : Execution σ :=
  { m.rewind with input := input, output := output }

/-- Run from the start of the program on a blank tape, within `n` ticks. -/
def run (n : Nat) (m : Machine) (input : Source) (output : σ) :
    Option (Execution σ × Except Fault Unit) :=
  match (m.start input output).ticks n with
  | .running _ => none
  | .ended x result => some (x.conclude result)

end Machine
end ByteTape
