import ByteTape.Proofs.Bracket.Memo
import ByteTape.Proofs.Bracket.Pairing

/-! A program as a tree of loops, read with one stack from left to right. Every piece
of the tree stands on a stretch of the text, and a bracket left over is a check. -/
namespace ByteTape
open ByteTape.Bracket

inductive Primitive where
  | right
  | left
  | increment
  | decrement
  | write
  | read
  deriving DecidableEq

namespace Primitive

def ofChar? : Char → Option Primitive
  | '>' => some right
  | '<' => some left
  | '+' => some increment
  | '-' => some decrement
  | '.' => some write
  | ',' => some read
  | _ => none

def instruction : Primitive → Instruction
  | right => .right
  | left => .left
  | increment => .increment
  | decrement => .decrement
  | write => .write
  | read => .read

end Primitive

/-- A piece of a structured program. A primitive and a check keep their place in the
text for the errors that they may raise. -/
inductive Stmt where
  | skip
  | primitive (a : Primitive) (ip : Nat)
  /-- Repeat the body while the cell is not 0. -/
  | loop (body : List Stmt)
  /-- A bracket without a partner. -/
  | check (side : BracketSide) (ip : Nat)

def Stmt.ofChar (ip : Nat) (c : Char) : Stmt :=
  match Primitive.ofChar? c with
  | some a => .primitive a ip
  | none => .skip

/-- The state of a reader: the statements of the innermost unfinished loop, and around
it the place of each opening bracket with the statements before it. -/
structure Reader where
  block : List Stmt
  outer : List (Nat × List Stmt)

namespace Reader

def step (r : Reader) (i : Nat) : Char → Reader
  | '[' => ⟨[], (i, r.block) :: r.outer⟩
  | ']' =>
    match r.outer with
    | [] => ⟨r.block ++ [.check .closing i], []⟩
    | (_, before) :: outer => ⟨before ++ [.loop r.block], outer⟩
  | c => ⟨r.block ++ [.ofChar i c], r.outer⟩

/-- At the end of the text the loops still unfinished are no loops. -/
def finish : List Stmt → List (Nat × List Stmt) → List Stmt
  | block, [] => block
  | block, (i, before) :: outer => finish (before ++ .check .opening i :: block) outer

end Reader

def Program.readUpTo (p : Program) : Nat → Reader
  | 0 => ⟨[], []⟩
  | k + 1 =>
    match p.get? k with
    | none => p.readUpTo k
    | some c => (p.readUpTo k).step k c

def Program.structured (p : Program) : List Stmt :=
  Reader.finish (p.readUpTo p.size).block (p.readUpTo p.size).outer

/-- The statements are the reading of the text from `i` up to `j`: loops stand on
matching brackets and checks on brackets without a partner. -/
inductive Spans (p : Program) : Nat → List Stmt → Nat → Prop
  | nil (i : Nat) : Spans p i [] i
  | skip {i j : Nat} {c : Char} {rest : List Stmt} (char : p.get? i = some c)
      (comment : Instruction.ofChar? c = none) (tail : Spans p (i + 1) rest j) :
      Spans p i (.skip :: rest) j
  | primitive {i j : Nat} {a : Primitive} {rest : List Stmt}
      (char : p.get? i = some a.instruction.symbol) (tail : Spans p (i + 1) rest j) :
      Spans p i (.primitive a i :: rest) j
  | loop {i j k : Nat} {body rest : List Stmt} (matched : Matched p i k)
      (inner : Spans p (i + 1) body k) (tail : Spans p (k + 1) rest j) :
      Spans p i (.loop body :: rest) j
  | check {i j : Nat} {d : Direction} {rest : List Stmt} (char : p.get? i = some d.bracket)
      (unpaired : ∀ k, ¬ Partner p i k) (tail : Spans p (i + 1) rest j) :
      Spans p i (.check d.side i :: rest) j

namespace Spans
variable {p : Program} {i j k : Nat} {xs ys : List Stmt}

private theorem append (h : Spans p i xs j) (h' : Spans p j ys k) : Spans p i (xs ++ ys) k := by
  induction h with
  | nil => exact h'
  | skip hc hn _ ih => exact .skip hc hn (ih h')
  | primitive hc _ ih => exact .primitive hc (ih h')
  | loop hm hi _ _ ih => exact .loop hm hi (ih h')
  | check hc hu _ ih => exact .check hc hu (ih h')

private theorem ofChar {c : Char} (hc : p.get? i = some c) (ho : c ≠ '[') (hcl : c ≠ ']') :
    Spans p i [.ofChar i c] (i + 1) := by
  unfold Stmt.ofChar
  cases ha : Primitive.ofChar? c with
  | some a =>
    have hs : c = a.instruction.symbol := by
      unfold Primitive.ofChar? at ha
      split at ha <;> simp_all [Primitive.instruction, Instruction.symbol] <;> subst ha <;> rfl
    exact .primitive (hs ▸ hc) (.nil _)
  | none =>
    have hn : Instruction.ofChar? c = none := by
      unfold Primitive.ofChar? at ha
      unfold Instruction.ofChar?
      split at ha <;> simp_all
    exact .skip hc hn (.nil _)

end Spans

namespace Reader
variable {p : Program} {k : Nat}

/-- The statements read so far reach up to `k`: those of each unfinished loop go from
its opening bracket to the next inner one. -/
def Fits (p : Program) : List Stmt → List (Nat × List Stmt) → Nat → Prop
  | block, [], k => Spans p 0 block k
  | block, (i, before) :: outer, k => Spans p (i + 1) block k ∧ Fits p before outer i

private theorem Fits.append {block : List Stmt} {outer : List (Nat × List Stmt)} {i : Nat}
    {more : List Stmt} (h : Fits p block outer i) (hm : Spans p i more k) :
    Fits p (block ++ more) outer k := by
  cases outer with
  | nil => exact Spans.append h hm
  | cons frame outer => exact ⟨h.1.append hm, h.2⟩

end Reader

namespace Program
open Reader
variable {p : Program} {k : Nat}

private theorem readUpTo_succ {c : Char} (h : p.get? k = some c) :
    p.readUpTo (k + 1) = (p.readUpTo k).step k c := by
  simp [readUpTo, h]

/-- The unfinished loops of the reader are the open loops of the pass. -/
private theorem outer_readUpTo (p : Program) (k : Nat) :
    (p.readUpTo k).outer.map Prod.fst = (pass p k).waiting := by
  induction k with
  | zero => rfl
  | succ k ih =>
    cases hc : p.get? k with
    | none => simpa [readUpTo, Bracket.pass, hc] using ih
    | some c =>
      rw [readUpTo_succ hc, pass_succ hc]
      rcases (pass p k).step_cases k c with ⟨rfl, he⟩ | ⟨rfl, hw, he⟩ | ⟨o, rest, rfl, hw, he⟩ |
        ⟨ho, hcl, he⟩
      · rw [he, ← ih]
        rfl
      · rw [hw, List.map_eq_nil_iff] at ih
        simp [he, hw, step, ih]
      · rw [hw, List.map_eq_cons_iff] at ih
        obtain ⟨⟨_, before⟩, outer, houter, _, hrest⟩ := ih
        simp [he, step, houter, hrest]
      · rw [he, ← ih]
        simp [step]

private theorem fits_readUpTo (hk : k ≤ p.size) :
    Fits p (p.readUpTo k).block (p.readUpTo k).outer k := by
  induction k with
  | zero => exact .nil 0
  | succ k ih =>
    have hf := ih (by omega)
    have hs := stacked_pass (p := p) (k := k) (by omega)
    rw [← outer_readUpTo] at hs
    obtain ⟨c, hc⟩ := exists_get? hk
    rw [readUpTo_succ hc]
    by_cases ho : c = '['
    · subst ho
      exact ⟨.nil _, hf⟩
    · by_cases hcl : c = ']'
      · subst hcl
        rcases houter : (p.readUpTo k).outer with _ | ⟨⟨i, before⟩, outer⟩
        · rw [houter] at hf hs
          have hu : ∀ i, ¬ Partner p k i := by
            rintro i (hm | hm)
            · exact absurd (hm.opening_eq hc) (by decide)
            · exact hs.not_matched hm
          have hcheck : Spans p k [.check .closing k] (k + 1) :=
            .check (d := .backward) hc hu (.nil _)
          simpa [step, houter] using hf.append hcheck
        · rw [houter] at hf hs
          have hloop : Spans p i [.loop (p.readUpTo k).block] (k + 1) :=
            .loop (hs.matched hc) hf.1 (.nil _)
          simpa [step, houter] using hf.2.append hloop
      · simpa [step, ho, hcl] using hf.append (.ofChar hc ho hcl)

/-- Loops still unfinished at the end of the text have no partner anywhere. -/
private theorem spans_finish {block : List Stmt} {outer : List (Nat × List Stmt)}
    (hf : Fits p block outer k)
    (hu : ∀ i ∈ outer.map Prod.fst, p.get? i = some '[' ∧ ∀ j, ¬ Partner p i j) :
    Spans p 0 (finish block outer) k := by
  induction outer generalizing block with
  | nil => exact hf
  | cons frame outer ih =>
    obtain ⟨i, before⟩ := frame
    obtain ⟨hi, hpart⟩ := hu i (by simp)
    have hcheck : Spans p i (.check .opening i :: block) k :=
      .check (d := .forward) hi hpart hf.1
    exact ih (hf.2.append hcheck) fun j hj => hu j (by simp_all)

/-- The tree is a reading of the whole text. -/
theorem spans_structured (p : Program) : Spans p 0 p.structured p.size := by
  apply spans_finish (fits_readUpTo le_rfl)
  intro i hi
  rw [outer_readUpTo] at hi
  obtain ⟨ho, hn⟩ := mem_unpaired_opening_iff.mp hi
  refine ⟨ho, ?_⟩
  rintro j (hm | hm)
  · exact hn j hm
  · exact absurd (hm.closing_eq ho) (by decide)

example : (Program.ofList ['[', '+', ']', 'a', '[']).structured =
    [.loop [.primitive .increment 1], .skip, .check .opening 4] := rfl

end Program
end ByteTape
