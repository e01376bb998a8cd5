import ByteTape.Stream.Sink

/-! What a run needs of the stream that it writes to, and such streams: a device
itself, a device behind a line buffer, and a stream that counts what is asked of it. -/
namespace ByteTape

/-- A stream that takes bytes one at a time. `rings` holds once it asks for the
run to be cancelled. -/
class ByteOutput (σ : Type) where
  put : σ → UInt8 → σ × Except StreamError Unit
  flush : σ → σ × Except StreamError Unit
  rings : σ → Bool

instance : ByteOutput Sink where
  put s b := s.write [b]
  flush := Sink.flush
  rings := Sink.rings

/-- A device that sees bytes only when a line is complete, when the buffer is
full, or at a flush. -/
structure LineBuffered where
  pending : Array UInt8
  device : Sink
  deriving DecidableEq

namespace LineBuffered

def capacity : Nat := 1024

def lineFeed : UInt8 := 10

def ofSink (device : Sink) : LineBuffered := ⟨#[], device⟩

/-- Hand all waiting bytes to the device. Those that it refuses go on waiting. -/
def transfer (s : LineBuffered) : LineBuffered × Except StreamError Unit :=
  match s.device.write s.pending.toList with
  | (device, .ok ()) => (⟨#[], device⟩, .ok ())
  | (device, .error e) =>
    (⟨s.pending.drop (device.stored.size - s.device.stored.size), device⟩, .error e)

/-- Let a byte wait, after a transfer if the buffer is full. A line feed completes
a line, which is transferred with it. -/
def put (s : LineBuffered) (b : UInt8) : LineBuffered × Except StreamError Unit :=
  match if s.pending.size < capacity then (s, .ok ()) else s.transfer with
  | (s, .error e) => (s, .error e)
  | (s, .ok ()) =>
    let s : LineBuffered := ⟨s.pending.push b, s.device⟩
    if b = lineFeed then s.transfer else (s, .ok ())

instance : ByteOutput LineBuffered where
  put := put
  flush := transfer
  rings s := s.device.rings

end LineBuffered

/-- A stream that asks for the run to be cancelled in one of its operations, whether
or not that operation fails. -/
structure Belled (σ : Type) where
  output : σ
  /-- The number of operations so far, with those that failed. -/
  calls : Nat
  /-- The operation, counted from 1, in which it asks. -/
  bell : Nat

namespace Belled
variable {σ : Type} [ByteOutput σ]

def count (s : Belled σ) (answer : σ × Except StreamError Unit) :
    Belled σ × Except StreamError Unit :=
  ({ s with output := answer.1, calls := s.calls + 1 }, answer.2)

instance : ByteOutput (Belled σ) where
  put s b := s.count (ByteOutput.put s.output b)
  flush s := s.count (ByteOutput.flush s.output)
  rings s := ByteOutput.rings s.output || s.bell ≤ s.calls

end Belled
end ByteTape
