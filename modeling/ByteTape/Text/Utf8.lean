/-! Text from bytes that may not be well formed. A byte string falls into units:
characters, and malformed stretches that are as long as the start of some
character. A lossy reading shows one replacement character for each stretch. -/
namespace ByteTape.Text.Utf8

/-- A character under way: how many bytes are still missing, the range of the next
one, and the bits seen so far. -/
structure Pending where
  missing : Nat
  low : UInt8
  high : UInt8
  bits : Nat
  deriving DecidableEq

inductive Lead where
  | single (c : Char)
  | multi (p : Pending)
  | malformed
  deriving DecidableEq

/-- The first byte fixes the length, and with it the range of the second byte:
the ranges leave out overlong forms, surrogates and numbers past the last character. -/
def lead (b : UInt8) : Lead :=
  let n := b.toNat
  if n < 0x80 then .single (Char.ofNat n)
  else if n < 0xC2 then .malformed
  else if n < 0xE0 then .multi ⟨1, 0x80, 0xBF, n - 0xC0⟩
  else if n < 0xF0 then
    .multi ⟨2, if n = 0xE0 then 0xA0 else 0x80, if n = 0xED then 0x9F else 0xBF, n - 0xE0⟩
  else if n < 0xF5 then
    .multi ⟨3, if n = 0xF0 then 0x90 else 0x80, if n = 0xF4 then 0x8F else 0xBF, n - 0xF0⟩
  else .malformed

/-- The units found so far, a malformed stretch as `none`, and the character under way. -/
structure Decoder where
  units : Array (Option Char)
  pending : Option Pending
  deriving DecidableEq

namespace Decoder

def initial : Decoder := ⟨#[], none⟩

def begin (units : Array (Option Char)) (b : UInt8) : Decoder :=
  match lead b with
  | .single c => ⟨units.push (some c), none⟩
  | .multi p => ⟨units, some p⟩
  | .malformed => ⟨units.push none, none⟩

/-- Take one byte. A byte that cannot go on with the character under way ends a
malformed stretch and is looked at afresh. -/
def feed (d : Decoder) (b : UInt8) : Decoder :=
  match d.pending with
  | none => begin d.units b
  | some p =>
    if p.low ≤ b ∧ b ≤ p.high then
      let bits := p.bits * 64 + (b.toNat - 0x80)
      if p.missing ≤ 1 then ⟨d.units.push (some (Char.ofNat bits)), none⟩
      else ⟨d.units, some ⟨p.missing - 1, 0x80, 0xBF, bits⟩⟩
    else begin (d.units.push none) b

/-- A character still under way at the end is a malformed stretch. -/
def finish (d : Decoder) : Array (Option Char) :=
  match d.pending with
  | none => d.units
  | some _ => d.units.push none

end Decoder

def units (bytes : List UInt8) : List (Option Char) :=
  (bytes.foldl Decoder.feed Decoder.initial).finish.toList

def replacement : Char := '\uFFFD'

def decodeLossy (bytes : List UInt8) : List Char :=
  (units bytes).map (·.getD replacement)

def decode? (bytes : List UInt8) : Option (List Char) :=
  (units bytes).mapM id

def encode (cs : List Char) : List UInt8 := cs.flatMap String.utf8EncodeChar

end ByteTape.Text.Utf8
