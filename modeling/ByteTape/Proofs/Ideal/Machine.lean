import ByteTape.Run
import Mathlib.Logic.Function.Basic

/-! The machine on an unbounded tape. There is a cell at every index from the start, a move
changes a number and nothing else, and a jump looks for its partner each time. No store can be
out of range, so all failures are errors of the run. -/
namespace ByteTape

structure Ideal (σ : Type) where
  program : Program
  config : Config
  cells : Nat → UInt8
  pointer : Nat
  ip : Nat
  steps : Nat
  cancel : Option Bool
  tracer : Option Tracer
  input : Source
  output : σ

namespace Ideal
variable {σ : Type}

def start (program : Program) (config : Config) (cancel : Option Bool) (tracer : Option Tracer)
    (input : Source) (output : σ) : Ideal σ where
  program := program
  config := config
  cells := fun _ => 0
  pointer := 0
  ip := 0
  steps := 0
  cancel := cancel
  tracer := tracer
  input := input
  output := output

def current (x : Ideal σ) : UInt8 := x.cells x.pointer

def put (x : Ideal σ) (b : UInt8) : Ideal σ :=
  { x with cells := Function.update x.cells x.pointer b }

def heed (x : Ideal σ) (rings : Bool) : Ideal σ :=
  { x with cancel := x.cancel.map (· || rings) }

def heedInput (x : Ideal σ) (input : Source) : Ideal σ :=
  { x with input := input }.heed input.rings

def jump (x : Ideal σ) (d : Direction) : Ideal σ × Except RunError Unit :=
  match Bracket.scan x.program x.ip d with
  | .ok target => ({ x with ip := target }, .ok ())
  | .error e => (x, .error e)

def accept (x : Ideal σ) : Ideal σ × Except RunError Unit :=
  match x.input.read with
  | (input, .byte b) => ((x.heedInput input).put b, .ok ())
  | (input, .ended) =>
    match x.config.eof with
    | .error => (x.heedInput input, .error (.inputExhausted x.ip))
    | .zero => ((x.heedInput input).put 0, .ok ())
    | .unchanged => (x.heedInput input, .ok ())
  | (input, .failed e) => (x.heedInput input, .error (.stream x.ip e))

variable [ByteOutput σ]

def heedOutput (x : Ideal σ) (output : σ) : Ideal σ :=
  { x with output := output }.heed (ByteOutput.rings output)

def perform (i : Instruction) (x : Ideal σ) : Ideal σ × Except RunError Unit :=
  match i with
  | .right => ({ x with pointer := x.pointer + 1 }, .ok ())
  | .left =>
    if x.pointer = 0 then (x, .error (.pointerUnderflow x.ip))
    else ({ x with pointer := x.pointer - 1 }, .ok ())
  | .increment => (x.put (x.current + 1), .ok ())
  | .decrement => (x.put (x.current - 1), .ok ())
  | .write =>
    match ByteOutput.put x.output x.current with
    | (output, .error e) => (x.heedOutput output, .error (.stream x.ip e))
    | (output, .ok ()) => (x.heedOutput output, .ok ())
  | .read =>
    match ByteOutput.flush x.output with
    | (output, .error e) => (x.heedOutput output, .error (.stream x.ip e))
    | (output, .ok ()) => (x.heedOutput output).accept
  | .loopOpen => if x.current = 0 then x.jump .forward else (x, .ok ())
  | .loopClose => if x.current = 0 then (x, .ok ()) else x.jump .backward

end Ideal

inductive Ideal.Progress (σ : Type) where
  | running (x : Ideal σ)
  | ended (x : Ideal σ) (result : Except RunError Unit)

namespace Ideal
variable {σ : Type}

def snapshot (x : Ideal σ) : Snapshot := ⟨x.ip, x.pointer, x.current⟩

/-- The row of an instruction that has just been performed. A row tells nothing of a machine
but its place, its pointer and the cell there, so a tape that ends there will do. -/
def row (i : Instruction) (before : Snapshot) (x : Ideal σ) : Trace.Row :=
  let shown : Execution σ :=
    { Machine.new x.program x.config with
      tape := ⟨(Array.replicate x.pointer 0).push x.current⟩
      pointer := x.pointer
      ip := x.ip
      steps := x.steps
      input := x.input
      output := x.output }
  shown.row i before

def record (i : Instruction) (before : Snapshot) (x : Ideal σ) :
    Ideal σ × Except RunError Unit :=
  match x.tracer with
  | none => (x, .ok ())
  | some tracer =>
    match tracer.row (x.row i before) with
    | (tracer, outcome) =>
      ({ x with tracer := some tracer }, outcome.mapError (.stream before.ip))

def veto (x : Ideal σ) : Option RunError :=
  if x.cancel = some true then some .interrupted
  else match x.config.maxSteps with
    | none => none
    | some limit => if limit ≤ x.steps then some (.stepLimitExceeded limit) else none

variable [ByteOutput σ]

def execute (i : Instruction) (x : Ideal σ) : Progress σ :=
  match x.perform i with
  | (y, .error e) => .ended y (.error e)
  | (y, .ok ()) =>
    match y.record i x.snapshot with
    | (z, .error e) => .ended z (.error e)
    | (z, .ok ()) => .running { z with steps := z.steps + 1, ip := z.ip + 1 }

def tick (x : Ideal σ) : Progress σ :=
  match x.program.get? x.ip with
  | none => .ended x (.ok ())
  | some c =>
    match Instruction.ofChar? c with
    | none => .running { x with ip := x.ip + 1 }
    | some i =>
      match x.veto with
      | some e => .ended x (.error e)
      | none => x.execute i

omit [ByteOutput σ] in
def signal (x : Ideal σ) : Option Bool → Ideal σ
  | none => x
  | some value => { x with cancel := x.cancel.map fun _ => value }

def drive : List (Option Bool) → Ideal σ → Progress σ
  | [], x => .running x
  | w :: ws, x =>
    match (x.signal w).tick with
    | .running y => drive ws y
    | .ended y result => .ended y result

def trail : List (Option Bool) → Ideal σ → List (Ideal σ)
  | [], _ => []
  | w :: ws, x =>
    x.signal w ::
      match (x.signal w).tick with
      | .running y => trail ws y
      | .ended _ _ => []

/-- End a run by the last flushes. Its own error comes first, then the output's, then the
tracer's. -/
def conclude (x : Ideal σ) (result : Except RunError Unit) : Ideal σ × Except RunError Unit :=
  let output := ByteOutput.flush x.output
  let table := x.tracer.map Tracer.flush
  ({ x with output := output.1, tracer := table.map Prod.fst },
    result *> (output.2 *> table.elim (.ok ()) Prod.snd).mapError (.stream x.ip))

def run (ws : List (Option Bool)) (x : Ideal σ) : Progress σ :=
  match x.drive ws with
  | .running y => .running y
  | .ended y result => .ended (y.conclude result).1 (y.conclude result).2

end Ideal
end ByteTape
