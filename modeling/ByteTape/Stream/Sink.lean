import ByteTape.Error

/-! An output device that keeps what it is given. It may hold a bounded number of
bytes, and chosen flushes may fail. -/
namespace ByteTape

structure Sink where
  stored : Array UInt8
  /-- For each flush so far, the number of bytes stored when it came. -/
  flushes : Array Nat
  capacity : Option Nat
  /-- What a write past the capacity fails with in the end, when no attempt at it is left
  that would be tried again. -/
  refusal : StreamError
  /-- The flushes that fail, by their number from 0. -/
  flushFaults : List (Nat × StreamError)
  /-- The number of stored bytes at which the device asks for the run to be cancelled. -/
  alarm : Option Nat
  deriving DecidableEq

namespace Sink

def unlimited : Sink := ⟨#[], #[], none, .incomplete, [], none⟩

def full : Sink := ⟨#[], #[], some 0, .noSpaceLeft, [], none⟩

def room (s : Sink) : Option Nat := s.capacity.map (· - s.stored.size)

/-- Store the bytes in order. Those that do not fit are refused; the others stay. This is
the whole write, with every attempt that a device makes at it. -/
def write (s : Sink) (bytes : List UInt8) : Sink × Except StreamError Unit :=
  match s.room with
  | none => ({ s with stored := s.stored.appendList bytes }, .ok ())
  | some room =>
    ({ s with stored := s.stored.appendList (bytes.take room) },
      if bytes.length ≤ room then .ok () else .error s.refusal)

/-- Note the flush; it fails when its number is among the faults. -/
def flush (s : Sink) : Sink × Except StreamError Unit :=
  ({ s with flushes := s.flushes.push s.stored.size },
    match s.flushFaults.lookup s.flushes.size with
    | none => .ok ()
    | some e => .error e)

theorem toList_write_of_capacity_none {s : Sink} (h : s.capacity = none) (bytes : List UInt8) :
    (s.write bytes).1.stored.toList = s.stored.toList ++ bytes := by
  simp [write, room, h]

/-- Bytes are stored, and no fewer than the alarm waits for. -/
def rings (s : Sink) : Bool := s.alarm.any fun k => max k 1 ≤ s.stored.size

end Sink
end ByteTape
