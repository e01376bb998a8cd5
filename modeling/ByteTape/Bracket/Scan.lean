import ByteTape.Error
import ByteTape.Program

/-! The partner of a loop bracket, found by walking over the loop while counting
depth. A walk starts one step beside `start`, so the character there is never read. -/
namespace ByteTape

inductive Direction where
  | forward
  | backward
  deriving DecidableEq

namespace Direction

def side : Direction → BracketSide
  | forward => .opening
  | backward => .closing

/-- Open loops after passing a character: a bracket of the starting side opens
one more, a bracket of the other side closes one. -/
def depthAfter : Direction → Nat → Char → Nat
  | forward, depth, '[' => depth + 1
  | forward, depth, ']' => depth - 1
  | backward, depth, '[' => depth - 1
  | backward, depth, ']' => depth + 1
  | _, depth, _ => depth

end Direction

namespace Bracket

def ahead (p : Program) : (n i depth : Nat) → Option Nat
  | 0, _, _ => none
  | n + 1, i, depth =>
    match p.get? i with
    | none => none
    | some c =>
      match Direction.forward.depthAfter depth c with
      | 0 => some i
      | d + 1 => ahead p n (i + 1) (d + 1)

/-- Walk left from just before `i` until every open loop is closed. A position
past the end of the program has no character before it, and the walk gives up. -/
def behind (p : Program) : (i depth : Nat) → Option Nat
  | 0, _ => none
  | i + 1, depth =>
    match p.get? i with
    | none => none
    | some c =>
      match Direction.backward.depthAfter depth c with
      | 0 => some i
      | d + 1 => behind p i (d + 1)

def partner? (p : Program) (start : Nat) : Direction → Option Nat
  | .forward => ahead p (p.size - (start + 1)) (start + 1) 1
  | .backward => behind p start 1

def scan (p : Program) (start : Nat) (d : Direction) : Except RunError Nat :=
  match partner? p start d with
  | some target => .ok target
  | none => .error (.unmatchedBracket start d.side)

end Bracket
end ByteTape
