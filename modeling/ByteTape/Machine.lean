import ByteTape.Bracket.Memo
import ByteTape.Config
import ByteTape.Stream.Output
import ByteTape.Stream.Source
import ByteTape.Tape
import ByteTape.Trace

/-! The machine and its single step. A step passes one character of the program;
an instruction is checked against the cancel flag and the step limit, performed,
written to the table, and counted, in this order. -/
namespace ByteTape

/-- A machine keeps its memo, tracer and cancel flag from run to run. -/
structure Machine where
  program : Program
  config : Config
  tape : Tape
  pointer : Nat
  ip : Nat
  /-- Instructions counted in this run; comments do not count. -/
  steps : Nat
  memo : JumpMemo
  /-- The value of the cancel flag, once one is attached. -/
  cancel : Option Bool
  tracer : Option Tracer

namespace Machine

/-- A machine that has not run. A configured trace goes to a device that never fails. -/
def new (program : Program) (config : Config) : Machine where
  program := program
  config := config
  tape := .blank
  pointer := 0
  ip := 0
  steps := 0
  memo := .empty program.size
  cancel := none
  tracer := if config.trace then some (.ofSink .unlimited) else none

def current (m : Machine) : UInt8 := m.tape.get m.pointer

def scans (m : Machine) : Nat := m.memo.scans

def rewind (m : Machine) : Machine :=
  { m with tape := .blank, pointer := 0, ip := 0, steps := 0 }

end Machine

structure Execution (σ : Type) extends Machine where
  input : Source
  output : σ

inductive Progress (σ : Type) where
  | running (x : Execution σ)
  | ended (x : Execution σ) (result : Except Fault Unit)

structure Snapshot where
  ip : Nat
  pointer : Nat
  cell : UInt8
  deriving DecidableEq

namespace Execution

variable {σ : Type}

def snapshot (x : Execution σ) : Snapshot := ⟨x.ip, x.pointer, x.current⟩

/-- Set the attached cancel flag if a stream asks for it; nothing clears it here. -/
def heed (x : Execution σ) (rings : Bool) : Execution σ :=
  { x with cancel := x.cancel.map (· || rings) }

def moveTo (x : Execution σ) (i : Nat) : Execution σ × Except Fault Unit :=
  match x.tape.check i with
  | .error e => ({ x with pointer := i }, .error (.outOfRange e))
  | .ok () => ({ x with pointer := i, tape := x.tape.reach i }, .ok ())

def change (x : Execution σ) (f : UInt8 → UInt8) : Execution σ × Except Fault Unit :=
  match x.tape.check x.pointer with
  | .error e => (x, .error (.outOfRange e))
  | .ok () => ({ x with tape := x.tape.update x.pointer f }, .ok ())

def jump (x : Execution σ) (d : Direction) : Execution σ × Except Fault Unit :=
  match x.memo.resolve x.program x.ip d with
  | (memo, .ok target) => ({ x with memo := memo, ip := target }, .ok ())
  | (memo, .error e) => ({ x with memo := memo }, .error e)

/-- Go on with what a call of the output has left, which is heeded whether or not
the call failed. -/
def heedOutput [ByteOutput σ] (x : Execution σ) (output : σ) : Execution σ :=
  { x with output := output }.heed (ByteOutput.rings output)

/-- Go on with what a read has left, whatever the read came to. -/
def heedInput (x : Execution σ) (input : Source) : Execution σ :=
  { x with input := input }.heed input.rings

def emit [ByteOutput σ] (x : Execution σ) : Execution σ × Except Fault Unit :=
  match ByteOutput.put x.output x.current with
  | (output, .error e) => (x.heedOutput output, .error (.error (.stream x.ip e)))
  | (output, .ok ()) => (x.heedOutput output, .ok ())

/-- Flush the output, so that a prompt is seen before the machine waits. -/
def prompt [ByteOutput σ] (x : Execution σ) : Execution σ × Except Fault Unit :=
  match ByteOutput.flush x.output with
  | (output, .error e) => (x.heedOutput output, .error (.error (.stream x.ip e)))
  | (output, .ok ()) => (x.heedOutput output, .ok ())

/-- Read one byte into the current cell; at the end of input the policy decides. -/
def accept (x : Execution σ) : Execution σ × Except Fault Unit :=
  match x.input.read with
  | (input, .byte b) => (x.heedInput input).change fun _ => b
  | (input, .ended) =>
    match x.config.eof with
    | .error => (x.heedInput input, .error (.error (.inputExhausted x.ip)))
    | .zero => (x.heedInput input).change fun _ => 0
    | .unchanged => (x.heedInput input, .ok ())
  | (input, .failed e) => (x.heedInput input, .error (.error (.stream x.ip e)))

/-- Carry out one instruction. A jump leaves `ip` on the partner, so that the
advance by one that follows steps past it. -/
def perform [ByteOutput σ] (i : Instruction) (x : Execution σ) :
    Execution σ × Except Fault Unit :=
  match i with
  | .right => x.moveTo (x.pointer + 1)
  | .left =>
    if x.pointer = 0 then (x, .error (.error (.pointerUnderflow x.ip)))
    else ({ x with pointer := x.pointer - 1 }, .ok ())
  | .increment => x.change (· + 1)
  | .decrement => x.change (· - 1)
  | .write => x.emit
  | .read =>
    match x.prompt with
    | (x, .ok ()) => x.accept
    | failed => failed
  | .loopOpen => if x.current = 0 then x.jump .forward else (x, .ok ())
  | .loopClose => if x.current = 0 then (x, .ok ()) else x.jump .backward

def action (i : Instruction) (before : Snapshot) (x : Execution σ) : String :=
  match i with
  | .right | .left => s!"Moved pointer head to index {x.pointer}"
  | .increment => s!"Increment cell[{before.pointer}] from {before.cell} to {x.current}"
  | .decrement => s!"Decrement cell[{before.pointer}] from {before.cell} to {x.current}"
  | .write => s!"Output byte {x.current}"
  | .read => s!"Read byte -> {x.current}"
  | .loopOpen =>
    if x.ip = before.ip then "Enter loop (cell != 0)"
    else s!"Cell is 0; jump forward to matching ']' at IP {x.ip}"
  | .loopClose =>
    if x.ip = before.ip then "Exit loop (cell is 0)"
    else s!"Cell != 0; jump back to matching '[' at IP {x.ip}"

def row (i : Instruction) (before : Snapshot) (x : Execution σ) : Trace.Row where
  step := x.steps
  ip := before.ip
  pointer := before.pointer
  cell := before.cell
  symbol := i.symbol
  action := x.action i before

def record (i : Instruction) (before : Snapshot) (x : Execution σ) :
    Execution σ × Except Fault Unit :=
  match x.tracer with
  | none => (x, .ok ())
  | some tracer =>
    match tracer.row (x.row i before) with
    | (tracer, .ok ()) => ({ x with tracer := some tracer }, .ok ())
    | (tracer, .error e) =>
      ({ x with tracer := some tracer }, .error (.error (.stream before.ip e)))

/-- What forbids the next instruction; a cancelled run is told so first. -/
def veto (x : Execution σ) : Option RunError :=
  if x.cancel = some true then some .interrupted
  else match x.config.maxSteps with
    | none => none
    | some limit => if limit ≤ x.steps then some (.stepLimitExceeded limit) else none

def execute [ByteOutput σ] (i : Instruction) (x : Execution σ) : Progress σ :=
  let before := x.snapshot
  match x.perform i with
  | (x, .error e) => .ended x (.error e)
  | (x, .ok ()) =>
    match x.record i before with
    | (x, .error e) => .ended x (.error e)
    | (x, .ok ()) => .running { x with steps := x.steps + 1, ip := x.ip + 1 }

def tick [ByteOutput σ] (x : Execution σ) : Progress σ :=
  match x.program.get? x.ip with
  | none => .ended x (.ok ())
  | some c =>
    match Instruction.ofChar? c with
    | none => .running { x with ip := x.ip + 1 }
    | some i =>
      match x.veto with
      | some e => .ended x (.error (.error e))
      | none => x.execute i

end Execution
end ByteTape
