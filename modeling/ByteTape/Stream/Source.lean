import ByteTape.Error

/-! An input stream as a script: stretches of bytes, single reads that report the
end of input, single reads that fail. After the script every read is at the end. -/
namespace ByteTape

inductive Source.Item where
  | data (bytes : List UInt8)
  | ended
  | failure (e : StreamError)
  deriving DecidableEq

inductive Reading where
  | byte (b : UInt8)
  | ended
  | failed (e : StreamError)
  deriving DecidableEq

/-- A script as far as it has not been read, with counts of what has. The reader asks
for the run to be cancelled after a number of bytes, or in a read whatever it comes to. -/
structure Source where
  items : List Source.Item
  /-- The number of bytes read so far. -/
  delivered : Nat
  /-- The number of bytes after which the reader asks for the run to be cancelled. -/
  alarm : Option Nat
  /-- The number of reads so far, with those that gave no byte. -/
  reads : Nat := 0
  /-- The read, counted from 1, in which the reader asks for the run to be cancelled. -/
  bell : Option Nat := none
  deriving DecidableEq

namespace Source

def ofItems (items : List Item) : Source := { items, delivered := 0, alarm := none }

def ofBytes (bytes : List UInt8) : Source := ofItems [.data bytes]

/-- The next reading and the items left. An interrupted read is tried again at
once; one that fails with an unexpected end counts as the end of input. -/
def next : List Item → Reading × List Item
  | [] => (.ended, [])
  | .data [] :: rest => next rest
  | .data (b :: bs) :: rest => (.byte b, .data bs :: rest)
  | .ended :: rest => (.ended, rest)
  | .failure e :: rest =>
    match e.kind with
    | .interrupted => next rest
    | .unexpectedEnd => (.ended, rest)
    | _ => (.failed e, rest)

def read (s : Source) : Source × Reading :=
  match next s.items with
  | (.byte b, rest) =>
    ({ s with items := rest, delivered := s.delivered + 1, reads := s.reads + 1 }, .byte b)
  | (r, rest) => ({ s with items := rest, reads := s.reads + 1 }, r)

def isExhausted (s : Source) : Bool := s.items.all (· == .data [])

/-- Bytes have been read, and no fewer than the alarm waits for, or the read that the
bell waits for has been tried. -/
def rings (s : Source) : Bool :=
  (s.alarm.any fun k => max k 1 ≤ s.delivered) || s.bell.any (· ≤ s.reads)

end Source
end ByteTape
