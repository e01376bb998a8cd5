import ByteTape.Stream.Sink

/-! The step table: a header, a rule, and one row for each executed instruction.
Numbers stand left in columns of fixed width; a wider number pushes its column
outward and is never cut. -/
namespace ByteTape
namespace Trace

/-- One executed instruction: where it stood and what it found, then what it did. -/
structure Row where
  step : Nat
  ip : Nat
  pointer : Nat
  cell : UInt8
  symbol : Char
  action : String
  deriving DecidableEq

def padRight (width : Nat) (s : String) : String :=
  s ++ String.ofList (List.replicate (width - s.length) ' ')

def header : String := "STEP | IP  | PTR | CELL | INSTR | ACTION"

def rule : String :=
  "-----+-----+-----+------+-------+------------------------------------------------"

def Row.text (r : Row) : String :=
  padRight 4 (toString r.step) ++ " | " ++ padRight 3 (toString r.ip) ++ " | " ++
    padRight 3 (toString r.pointer) ++ " | " ++ padRight 4 (toString r.cell) ++ " |  " ++
    r.symbol.toString ++ "    | " ++ r.action

def lineBytes (s : String) : List UInt8 := (s ++ "\n").toUTF8.toList

end Trace

structure Tracer where
  sink : Sink
  headed : Bool
  deriving DecidableEq

namespace Tracer

def ofSink (sink : Sink) : Tracer := ⟨sink, false⟩

def head (t : Tracer) : Tracer × Except StreamError Unit :=
  if t.headed then
    (t, .ok ())
  else
    match t.sink.write (Trace.lineBytes Trace.header ++ Trace.lineBytes Trace.rule) with
    | (sink, .ok ()) => (⟨sink, true⟩, .ok ())
    | (sink, .error e) => (⟨sink, false⟩, .error e)

def row (t : Tracer) (r : Trace.Row) : Tracer × Except StreamError Unit :=
  match t.head with
  | (t, .error e) => (t, .error e)
  | (t, .ok ()) =>
    match t.sink.write (Trace.lineBytes r.text) with
    | (sink, outcome) => (⟨sink, t.headed⟩, outcome)

def flush (t : Tracer) : Tracer × Except StreamError Unit :=
  match t.sink.flush with
  | (sink, outcome) => (⟨sink, t.headed⟩, outcome)

end Tracer
end ByteTape
