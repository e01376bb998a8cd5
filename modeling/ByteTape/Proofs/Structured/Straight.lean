import ByteTape.Proofs.Comments.Stripping
import ByteTape.Proofs.Machine.StepLimit
import ByteTape.Proofs.Structured.Agreement

/-! Programs that neither loop nor read. What such a program has done up to any of its characters
is told by counting: its moves give the place of the pointer, and the changes that were made at a
place give the cell there. -/
namespace ByteTape
open ByteTape.Bracket

namespace Program

structure Straight (p : Program) : Prop where
  opening : '[' ∉ p.toList
  closing : ']' ∉ p.toList
  read : ',' ∉ p.toList

def shift (p : Program) (k : Nat) : Int :=
  (p.toList.take k).count '>' - (p.toList.take k).count '<'

/-- How often `c` stands among the first `k` characters at a place where the moves lead to `j`. -/
def countAt (p : Program) (c : Char) (j : Int) (k : Nat) : Nat :=
  (List.range k).countP fun i => p.get? i = some c ∧ p.shift i = j

/-- Increments less decrements of the cell `j` among the first `k` characters. -/
def tally (p : Program) (j : Int) (k : Nat) : Int := p.countAt '+' j k - p.countAt '-' j k

/-- What the first `k` characters write: at each `.` the cell that the moves have led to. -/
def printed (p : Program) (k : Nat) : List UInt8 :=
  ((List.range k).filter fun i => p.get? i = some '.').map fun i => .ofInt (p.tally (p.shift i) i)

/-- The furthest cell that the first `k` characters lead to. -/
def extent (p : Program) (k : Nat) : Nat :=
  ((List.range (k + 1)).map fun i => (p.shift i).toNat).foldl max 0

def tallied (p : Program) (input : Source) (before : List UInt8) (k : Nat) : Store where
  cells := (List.range (p.extent k + 1)).map fun j : Nat => .ofInt (p.tally j k)
  pointer := (p.shift k).toNat
  input := input
  written := before ++ p.printed k
  steps := p.rank k

/-- Where a program that neither loops nor reads comes to its end: behind its last character, or at
the first `<` that leads off the tape. -/
inductive Halts (p : Program) : Nat → Except RunError Unit → Prop
  | finished (inside : ∀ i ≤ p.size, 0 ≤ p.shift i) : Halts p p.size (.ok ())
  | underflow {k : Nat} (left : p.get? k = some '<') (inside : ∀ i ≤ k, 0 ≤ p.shift i)
      (outside : p.shift (k + 1) < 0) : Halts p k (.error (.pointerUnderflow k))

variable {p : Program} {i k : Nat} {j : Int} {b c : Char} {input : Source} {before : List UInt8}

private theorem Straight.ne (h : p.Straight) (hc : p.get? k = some c) :
    c ≠ '[' ∧ c ≠ ']' ∧ c ≠ ',' := by
  have hmem : c ∈ p.toList := by
    rw [get?_eq_getElem?] at hc
    exact List.mem_of_getElem? hc
  refine ⟨?_, ?_, ?_⟩ <;> rintro rfl
  · exact h.opening hmem
  · exact h.closing hmem
  · exact h.read hmem

@[simp] theorem shift_zero (p : Program) : p.shift 0 = 0 := rfl

private theorem shift_succ (h : p.get? k = some c) : p.shift (k + 1) =
    p.shift k + (if c = '>' then 1 else 0) - if c = '<' then 1 else 0 := by
  rw [shift, count_take_succ h, count_take_succ h, shift]
  split <;> split <;> omega

private theorem shift_right (h : p.get? k = some '>') : p.shift (k + 1) = p.shift k + 1 := by
  simp [shift_succ h]

private theorem shift_left (h : p.get? k = some '<') : p.shift (k + 1) = p.shift k - 1 := by
  simp [shift_succ h]

/-- Only a move to the left leads to the left. -/
private theorem eq_left_of_shift_lt (h : p.get? k = some c) (hlt : p.shift (k + 1) < p.shift k) :
    c = '<' := by
  by_contra hne
  rw [shift_succ h, if_neg hne] at hlt
  split at hlt <;> omega

private theorem countAt_succ (h : p.get? k = some c) : p.countAt b j (k + 1) =
    p.countAt b j k + if c = b ∧ p.shift k = j then 1 else 0 := by
  simp [countAt, List.range_succ, List.countP_singleton, h]

private theorem tally_succ (h : p.get? k = some c) : p.tally j (k + 1) = p.tally j k +
    (if c = '+' ∧ p.shift k = j then 1 else 0) - if c = '-' ∧ p.shift k = j then 1 else 0 := by
  rw [tally, countAt_succ h, countAt_succ h, tally]
  split <;> split <;> omega

private theorem printed_succ (h : p.get? k = some c) : p.printed (k + 1) =
    p.printed k ++ if c = '.' then [.ofInt (p.tally (p.shift k) k)] else [] := by
  by_cases hc : c = '.' <;> simp [printed, List.range_succ, List.filter_append, h, hc]

private theorem extent_succ (p : Program) (k : Nat) :
    p.extent (k + 1) = max (p.extent k) (p.shift (k + 1)).toNat := by
  rw [extent, List.range_succ, List.map_append, List.foldl_append]
  rfl

private theorem shift_le_extent (h : i ≤ k) : p.shift i ≤ p.extent k := by
  induction k with
  | zero =>
    obtain rfl := Nat.le_zero.mp h
    exact le_rfl
  | succ k ih =>
    rw [extent_succ]
    rcases Nat.lt_or_eq_of_le h with hlt | rfl
    · have hle := ih (Nat.le_of_lt_succ hlt)
      omega
    · omega

private theorem extent_succ_of_le (h : p.shift (k + 1) ≤ p.shift k) :
    p.extent (k + 1) = p.extent k := by
  have hle : p.shift k ≤ p.extent k := shift_le_extent le_rfl
  rw [extent_succ]
  omega

/-- Cells that no move has led to are blank. -/
private theorem tally_of_extent_lt (h : p.extent k < j) : p.tally j k = 0 := by
  have hnone (b : Char) : p.countAt b j k = 0 := by
    rw [countAt, List.countP_eq_zero]
    intro i hi
    have hle : p.shift i ≤ p.extent k := shift_le_extent (List.mem_range.mp hi).le
    have hne : p.shift i ≠ j := by omega
    simp [hne]
  rw [tally, hnone, hnone]
  rfl

private theorem toNat_ofInt (n : Int) : ((UInt8.ofInt n).toNat : Int) = n % 256 := by
  simp [UInt8.ofInt]
  omega

private theorem tallied_zero (p : Program) (input : Source) (before : List UInt8) :
    p.tallied input before 0 = .start input before := by
  have hwritten : before ++ p.printed 0 = before := List.append_nil before
  rw [tallied, hwritten]
  rfl

private theorem shift_comment (hc : p.get? k = some c) (hn : Instruction.ofChar? c = none) :
    p.shift (k + 1) = p.shift k := by
  have hne : c ≠ '>' ∧ c ≠ '<' := by
    constructor <;> rintro rfl <;> cases hn
  simp [shift_succ hc, hne.1, hne.2]

private theorem tallied_comment (hc : p.get? k = some c) (hn : Instruction.ofChar? c = none) :
    p.tallied input before (k + 1) = p.tallied input before k := by
  have hne : c ≠ '+' ∧ c ≠ '-' ∧ c ≠ '.' := by
    refine ⟨?_, ?_, ?_⟩ <;> rintro rfl <;> cases hn
  obtain ⟨hplus, hminus, hdot⟩ := hne
  have hshift := shift_comment hc hn
  simp [tallied, extent_succ_of_le hshift.le, hshift, tally_succ hc, printed_succ hc,
    rank_succ_of_comment hc hn, hplus, hminus, hdot]

private theorem getD_tallied (j : Nat) :
    (p.tallied input before k).cells.getD j 0 = .ofInt (p.tally j k) := by
  by_cases hj : j < p.extent k + 1
  · simp [tallied, hj]
  · have hblank : p.tally j k = 0 := tally_of_extent_lt (by omega)
    have hzero : UInt8.ofInt 0 = 0 := rfl
    simp [tallied, hj, hblank, hzero]

private theorem current_tallied (hk : 0 ≤ p.shift k) :
    (p.tallied input before k).current = .ofInt (p.tally (p.shift k) k) := by
  have hpointer : (((p.tallied input before k).pointer : Nat) : Int) = p.shift k :=
    Int.toNat_of_nonneg hk
  rw [Store.current, getD_tallied, hpointer]

private theorem moveRight_tallied (hc : p.get? k = some '>') (hk : 0 ≤ p.shift k) :
    (p.tallied input before k).moveRight.count = p.tallied input before (k + 1) := by
  have hshift := shift_right hc
  have hle : p.shift k ≤ p.extent k := shift_le_extent le_rfl
  have hextent := p.extent_succ k
  have hpointer : (p.shift k).toNat + 1 = (p.shift (k + 1)).toNat := by omega
  have hrank : p.rank (k + 1) = p.rank k + 1 := rank_succ_of_symbol (a := .right) hc
  by_cases hnew : p.shift k = p.extent k
  · have hblank : p.tally (p.extent k + 1) k = 0 := tally_of_extent_lt (by omega)
    have hgrown : p.extent (k + 1) = p.extent k + 1 := by omega
    have hend : (p.shift (k + 1)).toNat = p.extent k + 1 := by omega
    have hzero : UInt8.ofInt 0 = 0 := rfl
    simp [tallied, Store.moveRight, Store.count, hpointer, hrank, hgrown, printed_succ hc,
      tally_succ hc, hend, List.range_succ, hblank, hzero]
  · have hsame : p.extent (k + 1) = p.extent k := by omega
    have hroom : (p.shift (k + 1)).toNat ≠ p.extent k + 1 := by omega
    simp [tallied, Store.moveRight, Store.count, hpointer, hrank, hsame, printed_succ hc,
      tally_succ hc, hroom]

private theorem moveLeft_tallied (hc : p.get? k = some '<') :
    ({ p.tallied input before k with pointer := (p.tallied input before k).pointer - 1 } :
      Store).count = p.tallied input before (k + 1) := by
  have hshift := shift_left hc
  have hpointer : (p.shift k).toNat - 1 = (p.shift (k + 1)).toNat := by omega
  have hrank : p.rank (k + 1) = p.rank k + 1 := rank_succ_of_symbol (a := .left) hc
  have hsame : p.extent (k + 1) = p.extent k := extent_succ_of_le (by omega)
  simp [tallied, Store.count, hpointer, hrank, hsame, printed_succ hc, tally_succ hc]

private theorem change_tallied {a : Primitive} {f : UInt8 → UInt8}
    (hc : p.get? k = some a.instruction.symbol) (hk : 0 ≤ p.shift k)
    (hshift : p.shift (k + 1) = p.shift k) (hprinted : p.printed (k + 1) = p.printed k)
    (hf : ∀ j, UInt8.ofInt (p.tally j (k + 1)) =
      if p.shift k = j then f (.ofInt (p.tally j k)) else .ofInt (p.tally j k)) :
    ((p.tallied input before k).change f).count = p.tallied input before (k + 1) := by
  have hrank := rank_succ_of_symbol hc
  have hsame : p.extent (k + 1) = p.extent k := extent_succ_of_le hshift.le
  have hcells : (p.tallied input before k).cells.modify (p.shift k).toNat f =
      (p.tallied input before (k + 1)).cells := by
    apply List.ext_getElem
    · simp [tallied, hsame]
    · intro j hj hj'
      have hpointer : (p.shift k).toNat = j ↔ p.shift k = j := by omega
      simp [tallied, List.getElem_modify, hf, hpointer]
  have hstore : ((p.tallied input before k).change f).count =
      ⟨(p.tallied input before k).cells.modify (p.shift k).toNat f, (p.shift k).toNat, input,
        before ++ p.printed k, p.rank k + 1⟩ := rfl
  rw [hstore, hcells, tallied, hshift, hprinted, hrank]

private theorem increment_tallied (hc : p.get? k = some '+') (hk : 0 ≤ p.shift k) :
    ((p.tallied input before k).change (· + 1)).count = p.tallied input before (k + 1) := by
  refine change_tallied (a := .increment) hc hk ?_ ?_ fun j => ?_
  · simp [shift_succ hc]
  · simp [printed_succ hc]
  · by_cases hj : p.shift k = j <;> simp [tally_succ hc, hj, UInt8.ofInt_add]

private theorem decrement_tallied (hc : p.get? k = some '-') (hk : 0 ≤ p.shift k) :
    ((p.tallied input before k).change (· - 1)).count = p.tallied input before (k + 1) := by
  refine change_tallied (a := .decrement) hc hk ?_ ?_ fun j => ?_
  · simp [shift_succ hc]
  · simp [printed_succ hc]
  · by_cases hj : p.shift k = j <;>
      simp [tally_succ hc, hj, Int.sub_eq_add_neg, UInt8.ofInt_add, UInt8.sub_eq_add_neg]

private theorem write_tallied (hc : p.get? k = some '.') (hk : 0 ≤ p.shift k) :
    ({ p.tallied input before k with
        written := (p.tallied input before k).written ++ [(p.tallied input before k).current] } :
      Store).count = p.tallied input before (k + 1) := by
  have hshift : p.shift (k + 1) = p.shift k := by simp [shift_succ hc]
  have hsame : p.extent (k + 1) = p.extent k := extent_succ_of_le hshift.le
  have hrank : p.rank (k + 1) = p.rank k + 1 := rank_succ_of_symbol (a := .write) hc
  rw [current_tallied hk]
  simp [tallied, Store.count, hshift, hrank, hsame, printed_succ hc, tally_succ hc]

/-- Every primitive but reading does what its character counts for, as long as the moves do not
lead off the tape. -/
private theorem apply_tallied {a : Primitive} (eof : EofPolicy)
    (hc : p.get? k = some a.instruction.symbol)
    (hread : a ≠ .read) (hk : 0 ≤ p.shift k) (hnext : 0 ≤ p.shift (k + 1)) :
    ∃ t, (p.tallied input before k).apply eof k a = (t, .ok ()) ∧
      t.count = p.tallied input before (k + 1) := by
  cases a with
  | right => exact ⟨_, rfl, moveRight_tallied hc hk⟩
  | left =>
    have hshift := shift_left hc
    have hpointer : (p.tallied input before k).pointer ≠ 0 := by
      show (p.shift k).toNat ≠ 0
      omega
    exact ⟨_, if_neg hpointer, moveLeft_tallied hc⟩
  | increment => exact ⟨_, rfl, increment_tallied hc hk⟩
  | decrement => exact ⟨_, rfl, decrement_tallied hc hk⟩
  | write => exact ⟨_, rfl, write_tallied hc hk⟩
  | read => exact absurd rfl hread

private theorem apply_tallied_underflow (eof : EofPolicy) (hc : p.get? k = some '<')
    (hnext : p.shift (k + 1) < 0) :
    (p.tallied input before k).apply eof k .left =
      (p.tallied input before k, .error (.pointerUnderflow k)) := by
  have hshift := shift_left hc
  have hpointer : (p.tallied input before k).pointer = 0 := by
    show (p.shift k).toNat = 0
    omega
  exact if_pos hpointer

private theorem Straight.exists_primitive {a : Instruction} (h : p.Straight)
    (hc : p.get? k = some a.symbol) : ∃ b : Primitive, b.instruction = a ∧ b ≠ .read := by
  obtain ⟨hopening, hclosing, hread⟩ := h.ne hc
  cases a with
  | right => exact ⟨.right, rfl, by decide⟩
  | left => exact ⟨.left, rfl, by decide⟩
  | increment => exact ⟨.increment, rfl, by decide⟩
  | decrement => exact ⟨.decrement, rfl, by decide⟩
  | write => exact ⟨.write, rfl, by decide⟩
  | read => exact absurd rfl hread
  | loopOpen => exact absurd rfl hopening
  | loopClose => exact absurd rfl hclosing

private theorem Halts.inside {r : Except RunError Unit} (h : p.Halts k r) (hi : i ≤ k) :
    0 ≤ p.shift i := by
  cases h with
  | finished inside => exact inside i hi
  | underflow _ inside _ => exact inside i hi

private theorem Halts.le_size {r : Except RunError Unit} (h : p.Halts k r) : k ≤ p.size := by
  cases h with
  | finished => exact le_rfl
  | underflow left _ _ => exact (lt_size_of_get? left).le

private theorem Halts.le {r s : Except RunError Unit} (h : p.Halts k r) (h' : p.Halts i s) :
    i ≤ k := by
  cases h with
  | finished => exact h'.le_size
  | underflow _ _ outside =>
    by_contra hlt
    exact absurd (h'.inside (show k + 1 ≤ i by omega)) (by omega)

/-- There is one end. -/
theorem Halts.unique {r s : Except RunError Unit} (h : p.Halts k r) (h' : p.Halts i s) :
    k = i ∧ r = s := by
  obtain rfl := Nat.le_antisymm (h'.le h) (h.le h')
  refine ⟨rfl, ?_⟩
  cases h with
  | finished =>
    cases h' with
    | finished => rfl
    | underflow left _ _ => exact absurd (lt_size_of_get? left) (lt_irrefl _)
  | underflow left _ _ =>
    cases h' with
    | finished => exact absurd (lt_size_of_get? left) (lt_irrefl _)
    | underflow => rfl

private theorem exists_halts (p : Program) : ∃ k r, p.Halts k r := by
  by_cases h : ∃ i, i ≤ p.size ∧ p.shift i < 0
  · obtain ⟨hsize, hfirst⟩ := Nat.find_spec h
    have hbefore (i : Nat) (hi : i < Nat.find h) : 0 ≤ p.shift i := by
      by_contra hneg
      exact Nat.find_min h hi ⟨by omega, by omega⟩
    generalize Nat.find h = m at hsize hfirst hbefore
    cases m with
    | zero => exact absurd hfirst (by simp)
    | succ k =>
      have hk : 0 ≤ p.shift k := hbefore k (Nat.lt_succ_self k)
      obtain ⟨c, hc⟩ := exists_get? hsize
      obtain rfl := eq_left_of_shift_lt hc (by omega)
      exact ⟨k, _, .underflow hc (fun i hi => hbefore i (Nat.lt_succ_of_le hi)) hfirst⟩
  · refine ⟨p.size, .ok (), .finished fun i hi => ?_⟩
    by_contra hneg
    exact h ⟨i, hi, by omega⟩

end Program

namespace Execution
variable {σ : Type} [ByteOutput σ] {u : ByteOutput.Unfailing σ} {x : Execution σ} {p : Program}
  {eof : EofPolicy} {input : Source} {before : List UInt8} {k l : Nat}

/-- As long as the moves do not lead off the tape, a tick goes from what is counted up to one
character to what is counted up to the next. -/
private theorem stands_tallied (hp : p.Straight) (hkl : k < p.size) (hk : 0 ≤ p.shift k)
    (hnext : 0 ≤ p.shift (k + 1)) (hx : x.Stands p eof u k (p.tallied input before k)) :
    ∃ y, x.tick = .running y ∧ y.Stands p eof u (k + 1) (p.tallied input before (k + 1)) := by
  obtain ⟨c, hc⟩ := Program.exists_get? hkl
  cases hi : Instruction.ofChar? c with
  | none =>
    rw [Program.tallied_comment hc hi]
    exact hx.comment hc hi
  | some a =>
    obtain rfl := Instruction.ofChar?_eq_some_iff.mp hi
    obtain ⟨b, rfl, hread⟩ := hp.exists_primitive hc
    obtain ⟨t, hact, ht⟩ := Program.apply_tallied eof hc hread hk hnext
    rw [← ht]
    exact hx.primitive_ok hc hact

/-- A program that neither loops nor reads comes to its end with what was counted up to there. -/
private theorem follows_straight {r : Except RunError Unit} (hp : p.Straight) (hend : p.Halts l r)
    (hkl : k ≤ l) (hx : x.Stands p eof u k (p.tallied input before k)) :
    x.Follows p eof u p.size (p.tallied input before l) r := by
  -- on the number of characters that are left
  induction hn : l - k generalizing x k with
  | zero =>
    obtain rfl : k = l := by omega
    cases hend with
    | finished => exact ⟨0, x, rfl, hx⟩
    | underflow left _ outside =>
      exact .stop (hx.primitive_error (a := .left) left
        (Program.apply_tallied_underflow eof left outside))
  | succ n ih =>
    have hsize := hend.le_size
    have hstep := stands_tallied hp (by omega) (hend.inside hkl) (hend.inside (by omega)) hx
    exact .step hstep fun y hy => ih (by omega) hy (by omega)

end Execution

namespace Machine
variable {σ : Type} [ByteOutput σ]

/-- What a program that neither loops nor reads comes to, by counting its characters. It ends behind
its last one if the moves never lead off the tape, and otherwise fails at the first `<` that does.
In both cases it has counted the instructions up to there; the pointer is where the moves up to
there lead, on a tape just long enough for all of them; every cell is the increments less the
decrements made there, modulo 256; and each `.` has written what its cell was by the same count
up to that `.`. -/
theorem run_straight (u : ByteOutput.Unfailing σ) (p : Program) (hp : p.Straight) (c : Config)
    (es : List (Event σ)) (input : Source) (output : σ) (hlimit : c.maxSteps = none)
    (hcancel : ((Machine.new p c).after es).cancel = none)
    (htracer : ((Machine.new p c).after es).tracer = none) (ho : u.good output) :
    ∃ k r, p.Halts k r ∧ ∃ n x,
      ((Machine.new p c).after es).run n input output = some (x, r.mapError Fault.error) ∧
      x.steps = p.rank k ∧ (x.pointer : Int) = p.shift k ∧ x.tape.size = 1 + p.extent k ∧
      (∀ j : Nat, ((x.tape.get j).toNat : Int) = p.tally j k % 256) ∧
      u.written x.output = u.written output ++ p.printed k := by
  obtain ⟨k, r, hend⟩ := p.exists_halts
  have hrec := records_after (m := Machine.new p c) ⟨rfl, JumpMemo.records_empty p⟩ es
  have hconfig := (lasting_config (σ := σ) c).after (m := Machine.new p c) rfl es
  generalize (Machine.new p c).after es = m at *
  have hx := stands_start hrec.remembers (by rw [hconfig]; exact hlimit) hcancel htracer u input ho
  rw [hrec.program, hconfig, ← Program.tallied_zero p] at hx
  have hfollows := Execution.follows_straight hp hend (Nat.zero_le k) hx
  obtain ⟨n, z, ht, hz, hcounted⟩ := Execution.ended_of_follows hfollows
  obtain ⟨w, hw, hlast⟩ := Execution.conclude_of_plain hz r
  have hstore := hlast.trans hcounted
  have hpointer : w.pointer = (p.shift k).toNat := congrArg Store.pointer hstore
  have hcells : w.tape.cells.toList = _ := congrArg Store.cells hstore
  have hrun := run_eq_some_iff.mpr ⟨z, _, ht, hw⟩
  refine ⟨k, r, hend, n, w, hrun, congrArg Store.steps hstore, ?_, ?_, ?_,
    congrArg Store.written hstore⟩
  · rw [hpointer, Int.toNat_of_nonneg (hend.inside le_rfl)]
  · rw [Tape.size, ← Array.length_toList, hcells]
    simp [Program.tallied, Nat.add_comm]
  · intro j
    have hget : w.tape.get j = w.tape.cells.toList.getD j 0 := by simp [Tape.get]
    rw [hget, hcells, Program.getD_tallied, Program.toNat_ofInt]

/-- Two cells are taken below zero and one of them back, before a move leads off the tape. -/
theorem underflow_after_wrapping :
    ∃ n x, (Machine.new (.ofList ['-', '>', '-', '-', '.', '<', '+', '<', '.']) {}).run n
        (.ofBytes []) Sink.unlimited = some (x, .error (.error (.pointerUnderflow 7))) ∧
      x.steps = 7 ∧ x.pointer = 0 ∧ x.tape.size = 2 ∧ x.tape.get 1 = 254 ∧
      x.output.stored.toList = [254] := by
  have hat : (Program.ofList ['-', '>', '-', '-', '.', '<', '+', '<', '.']).Halts 7
      (.error (.pointerUnderflow 7)) := .underflow rfl (by decide) (by decide)
  obtain ⟨k, r, hend, n, x, hrun, hsteps, hpointer, hsize, hcells, hwritten⟩ := run_straight
    Sink.unfailing (.ofList ['-', '>', '-', '-', '.', '<', '+', '<', '.'])
    ⟨by decide, by decide, by decide⟩ {} [] (.ofBytes []) Sink.unlimited rfl rfl rfl ⟨rfl, rfl⟩
  obtain ⟨rfl, rfl⟩ := hend.unique hat
  refine ⟨n, x, hrun, hsteps, ?_, hsize, ?_, hwritten⟩
  · exact Int.ofNat.inj hpointer
  · exact UInt8.toNat.inj (Int.ofNat.inj (hcells 1))

end Machine
end ByteTape
