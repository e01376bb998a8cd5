import ByteTape.Config
import ByteTape.Proofs.Structured.Syntax
import ByteTape.Stream.Source

/-! What a tree of loops does. A loop tests its cell before each turn of its body, and
every test and every primitive that is carried out counts one step. -/
namespace ByteTape

/-- All that statements act on: the tape from its first cell on, the place of the
pointer, the input left, the bytes written, and the steps counted. -/
structure Store where
  cells : List UInt8
  pointer : Nat
  input : Source
  written : List UInt8
  steps : Nat
  deriving DecidableEq

namespace Store

def start (input : Source) (written : List UInt8) : Store := ⟨[0], 0, input, written, 0⟩

def current (s : Store) : UInt8 := s.cells.getD s.pointer 0

def change (s : Store) (f : UInt8 → UInt8) : Store :=
  { s with cells := s.cells.modify s.pointer f }

def count (s : Store) : Store := { s with steps := s.steps + 1 }

def moveRight (s : Store) : Store :=
  { s with
    pointer := s.pointer + 1
    cells := if s.pointer + 1 = s.cells.length then s.cells ++ [0] else s.cells }

def accept (eof : EofPolicy) (ip : Nat) (s : Store) : Store × Except RunError Unit :=
  match s.input.read with
  | (input, .byte b) => ({ s with input := input }.change fun _ => b, .ok ())
  | (input, .ended) =>
    match eof with
    | .error => ({ s with input := input }, .error (.inputExhausted ip))
    | .zero => ({ s with input := input }.change fun _ => 0, .ok ())
    | .unchanged => ({ s with input := input }, .ok ())
  | (input, .failed e) => ({ s with input := input }, .error (.stream ip e))

def apply (eof : EofPolicy) (ip : Nat) (s : Store) : Primitive → Store × Except RunError Unit
  | .right => (s.moveRight, .ok ())
  | .left =>
    if s.pointer = 0 then (s, .error (.pointerUnderflow ip))
    else ({ s with pointer := s.pointer - 1 }, .ok ())
  | .increment => (s.change (· + 1), .ok ())
  | .decrement => (s.change (· - 1), .ok ())
  | .write => ({ s with written := s.written ++ [s.current] }, .ok ())
  | .read => s.accept eof ip

/-- Whether a bracket without a partner can be passed: an opening one with a cell that
is not 0, a closing one with a cell that is. -/
def passes (s : Store) : BracketSide → Bool
  | .opening => s.current != 0
  | .closing => s.current == 0

end Store

/-- The statements, begun in the first store, end in the second one with this result.
Statements that never end have no derivation. -/
inductive Runs (eof : EofPolicy) : List Stmt → Store → Store → Except RunError Unit → Prop
  | done (s : Store) : Runs eof [] s s (.ok ())
  | skip {rest : List Stmt} {s s' : Store} {r : Except RunError Unit}
      (tail : Runs eof rest s s' r) : Runs eof (.skip :: rest) s s' r
  | primitive {a : Primitive} {ip : Nat} {rest : List Stmt} {s t s' : Store}
      {r : Except RunError Unit} (act : s.apply eof ip a = (t, .ok ()))
      (tail : Runs eof rest t.count s' r) : Runs eof (.primitive a ip :: rest) s s' r
  | fail {a : Primitive} {ip : Nat} {rest : List Stmt} {s t : Store} {e : RunError}
      (act : s.apply eof ip a = (t, .error e)) :
      Runs eof (.primitive a ip :: rest) s t (.error e)
  | leave {body rest : List Stmt} {s s' : Store} {r : Except RunError Unit}
      (zero : s.current = 0) (tail : Runs eof rest s.count s' r) :
      Runs eof (.loop body :: rest) s s' r
  | again {body rest : List Stmt} {s t s' : Store} {r : Except RunError Unit}
      (nonzero : s.current ≠ 0) (turn : Runs eof body s.count t (.ok ()))
      (more : Runs eof (.loop body :: rest) t s' r) : Runs eof (.loop body :: rest) s s' r
  | abort {body rest : List Stmt} {s t : Store} {e : RunError} (nonzero : s.current ≠ 0)
      (turn : Runs eof body s.count t (.error e)) :
      Runs eof (.loop body :: rest) s t (.error e)
  | pass {side : BracketSide} {ip : Nat} {rest : List Stmt} {s s' : Store}
      {r : Except RunError Unit} (passes : s.passes side = true)
      (tail : Runs eof rest s.count s' r) : Runs eof (.check side ip :: rest) s s' r
  | refuse {side : BracketSide} {ip : Nat} {rest : List Stmt} {s : Store}
      (refused : s.passes side = false) :
      Runs eof (.check side ip :: rest) s s (.error (.unmatchedBracket ip side))

/-- Statements have at most one end. -/
theorem Runs.unique {eof : EofPolicy} {b : List Stmt} {s t t' : Store}
    {r r' : Except RunError Unit} (h : Runs eof b s t r) (h' : Runs eof b s t' r') :
    t = t' ∧ r = r' := by
  induction h generalizing t' r' with
  | done => cases h'; exact ⟨rfl, rfl⟩
  | skip _ ih =>
    cases h' with
    | skip h' => exact ih h'
  | primitive ha _ ih =>
    cases h' with
    | primitive ha' h' =>
      obtain ⟨rfl, -⟩ := Prod.mk.inj (ha.symm.trans ha')
      exact ih h'
    | fail ha' => cases ha.symm.trans ha'
  | fail ha =>
    cases h' with
    | primitive ha' => cases ha.symm.trans ha'
    | fail ha' =>
      obtain ⟨rfl, he⟩ := Prod.mk.inj (ha.symm.trans ha')
      exact ⟨rfl, he⟩
  | leave hz _ ih =>
    cases h' with
    | leave _ h' => exact ih h'
    | again hn => exact absurd hz hn
    | abort hn => exact absurd hz hn
  | again hn _ _ ihturn ihmore =>
    cases h' with
    | leave hz => exact absurd hz hn
    | again _ hturn hmore =>
      obtain ⟨rfl, -⟩ := ihturn hturn
      exact ihmore hmore
    | abort _ hturn => cases (ihturn hturn).2
  | abort hn _ ih =>
    cases h' with
    | leave hz => exact absurd hz hn
    | again _ hturn => cases (ih hturn).2
    | abort _ hturn => exact ih hturn
  | pass hp _ ih =>
    cases h' with
    | pass _ h' => exact ih h'
    | refuse hr => cases hp.symm.trans hr
  | refuse hr =>
    cases h' with
    | pass hp => cases hp.symm.trans hr
    | refuse => exact ⟨rfl, rfl⟩

end ByteTape
