import ByteTape.Proofs.Machine.Safety

/-! What runs do to the tape. It grows under the pointer and nowhere else, so that its length
tells how far the pointer has come, and three instructions change the cell under the pointer. -/
namespace ByteTape

inductive Instruction.Changes : Instruction → (UInt8 → UInt8) → Prop
  | increment : Changes .increment (· + 1)
  | decrement : Changes .decrement (· - 1)
  | read (b : UInt8) : Changes .read fun _ => b

/-- With the pointer gone from `k` to `k'` the tape has at most grown there, or the cell at `k`
has been changed. -/
inductive Tape.Touched (i : Instruction) (t : Tape) (k : Nat) (t' : Tape) (k' : Nat) : Prop
  | grown (tape : t' = t.reach k')
  | changed {f : UInt8 → UInt8} (changes : i.Changes f) (pointer : k' = k)
      (tape : t' = t.update k f)

private theorem Tape.Touched.same {i : Instruction} {t : Tape} {k k' : Nat} (h : k < t.size)
    (hk : k' ≤ k) : Touched i t k t k' :=
  .grown (Tape.reach_of_lt (hk.trans_lt h)).symm

namespace Execution
open Tape
variable {σ : Type} {x y : Execution σ} {i : Instruction} {p : Program}

private theorem touched_change (h : x.pointer < x.tape.size) {f : UInt8 → UInt8}
    (hf : i.Changes f) : Touched i x.tape x.pointer (x.change f).1.tape (x.change f).1.pointer := by
  rw [change_of_inside h]
  exact .changed hf rfl rfl

private theorem touched_accept (h : x.pointer < x.tape.size) :
    Touched .read x.tape x.pointer x.accept.1.tape x.accept.1.pointer := by
  unfold accept
  split
  · rename_i input b _
    exact touched_change (x := x.heedInput input) h (.read b)
  · rename_i input _
    split
    · exact .same h le_rfl
    · exact touched_change (x := x.heedInput input) h (.read 0)
    · exact .same h le_rfl
  · exact .same h le_rfl

variable [ByteOutput σ]

private theorem touched_perform (hr : x.Remembers) (h : x.pointer < x.tape.size)
    (hi : x.program.get? x.ip = some i.symbol) :
    Touched i x.tape x.pointer (x.perform i).1.tape (x.perform i).1.pointer := by
  cases hd : i.direction? with
  | some d =>
    rcases bracket_cases hr hi hd with ⟨_, hx⟩ | ⟨_, _, _, hx⟩ | ⟨_, _, hx⟩
    · rw [hx]
      exact .same h le_rfl
    · rw [hx]
      exact .same h le_rfl
    · rw [hx]
      exact .same h le_rfl
  | none =>
    cases i with
    | right =>
      have hc : x.tape.check (x.pointer + 1) = .ok () := Tape.check_eq_ok_iff.mpr h
      simp only [perform, moveTo, hc]
      exact .grown rfl
    | left =>
      simp only [perform]
      split
      · exact .same h le_rfl
      · exact .same h (Nat.sub_le _ _)
    | increment => exact touched_change h .increment
    | decrement => exact touched_change h .decrement
    | write =>
      simp only [perform, emit]
      split
      · exact .same h le_rfl
      · exact .same h le_rfl
    | read =>
      simp only [perform, prompt]
      rcases ByteOutput.flush x.output with ⟨o, e | _⟩
      · exact .same h le_rfl
      · exact touched_accept (x := x.heedOutput o) h
    | loopOpen => cases hd
    | loopClose => cases hd

/-- A tick does no more to the tape and the pointer than its instruction, if it has one. -/
theorem touched_tick (hr : x.Remembers) (h : x.pointer < x.tape.size) :
    x.tick.state.pointer < x.tick.state.tape.size ∧
    ((x.tick.state.tape = x.tape ∧ x.tick.state.pointer = x.pointer) ∨
      ∃ i : Instruction, x.program.get? x.ip = some i.symbol ∧
        Touched i x.tape x.pointer x.tick.state.tape x.tick.state.pointer) := by
  rw [← tickBy_perform]
  rcases x.tickBy_cases perform with ⟨_, he⟩ | ⟨_, _, _, he⟩ | ⟨_, _, _, _, he⟩ | ⟨i, hi, _, he⟩
  · rw [he]
    exact ⟨h, .inl ⟨rfl, rfl⟩⟩
  · rw [he]
    exact ⟨h, .inl ⟨rfl, rfl⟩⟩
  · rw [he]
    exact ⟨h, .inl ⟨rfl, rfl⟩⟩
  · obtain ⟨t, n, k, hstate⟩ := x.state_executeBy perform i
    rw [he, hstate]
    exact ⟨(roomy_perform hr h hi).pointer, .inr ⟨i, hi, touched_perform hr h hi⟩⟩

/-- A tick makes the tape just as long as it has to be. -/
theorem size_tick (hr : x.Remembers) (h : x.pointer < x.tape.size) :
    x.tick.state.tape.size = max x.tape.size (x.tick.state.pointer + 1) := by
  obtain ⟨hpointer, ⟨ht, hp⟩ | ⟨i, _, ht | ⟨_, hp, ht⟩⟩⟩ := touched_tick hr h
  · rw [ht, hp]
    omega
  · have hsize := x.tape.size_reach x.tick.state.pointer
    rw [ht] at hpointer ⊢
    split at hsize <;> omega
  · rw [ht, hp, size_update, reach_of_lt h]
    omega

/-- A tick that changes a cell changes the one under the pointer, by an instruction that does
this. -/
theorem get_tick (hr : x.Remembers) (h : x.pointer < x.tape.size) {j : Nat}
    (hj : x.tick.state.tape.get j ≠ x.tape.get j) :
    j = x.pointer ∧ ∃ (i : Instruction) (f : UInt8 → UInt8), x.program.get? x.ip = some i.symbol ∧
      i.Changes f ∧ x.tick.state.tape.get j = f (x.tape.get j) := by
  obtain ⟨_, ⟨ht, _⟩ | ⟨i, hi, ht | ⟨hf, _, ht⟩⟩⟩ := touched_tick hr h
  · rw [ht] at hj
    exact absurd rfl hj
  · rw [ht, get_reach] at hj
    exact absurd rfl hj
  · rw [ht, get_update h.le] at hj
    have hplace : j = x.pointer := by
      by_contra hne
      rw [if_neg hne] at hj
      exact hj rfl
    refine ⟨hplace, i, _, hi, hf, ?_⟩
    rw [ht, get_update h.le, if_pos hplace, hplace]

/-- The states that a run comes through, and the one that it has come to. -/
def states (x : Execution σ) (ws : List (Option Bool)) : List (Execution σ) :=
  x.trail perform ws ++ [(x.drive perform ws).state]

omit [ByteOutput σ] in
/-- The furthest cell on which the pointer stands in one of the states. -/
def furthest (xs : List (Execution σ)) : Nat := (xs.map (·.pointer)).foldl max 0

/-- The length of the tape tells how far the pointer has come, here with `n` as the furthest
before the run. -/
private theorem size_states (h : x.Bounded p) {n : Nat} (hn : max n x.pointer + 1 = x.tape.size)
    (ws : List (Option Bool)) {k : Nat} (hk : (x.states ws)[k]? = some y) :
    y.tape.size = (((x.states ws).take (k + 1)).map (·.pointer)).foldl max n + 1 := by
  induction ws generalizing x n k with
  | nil =>
    obtain ⟨rfl, rfl⟩ : k = 0 ∧ x = y := by
      simpa [states, trail, drive, Progress.state, List.getElem?_singleton] using hk
    simpa [states, trail, drive, Progress.state] using hn.symm
  | cons w ws ih =>
    have hw := (steady_bounded p).signal x w h
    have hgrown := size_tick hw.remembers hw.inside.pointer
    have htape : (x.signal w).tape = x.tape ∧ (x.signal w).pointer = x.pointer := by
      cases w <;> exact ⟨rfl, rfl⟩
    rw [htape.1] at hgrown
    simp only [states, trail, drive, tickBy_perform, List.cons_append] at hk ⊢
    cases k with
    | zero =>
      obtain rfl : x.signal w = y := by simpa using hk
      simpa [htape] using hn.symm
    | succ k =>
      simp only [List.getElem?_cons_succ, List.take_succ_cons, List.map_cons, List.foldl_cons,
        htape.2] at hk ⊢
      cases ht : (x.signal w).tick with
      | running z =>
        rw [ht] at hk hgrown
        have hz : max (max n x.pointer) z.pointer + 1 = z.tape.size := by
          rw [Progress.state] at hgrown
          omega
        exact ih ((steady_bounded p).tick _ z hw ht) hz hk
      | ended z result =>
        rw [ht] at hk hgrown
        obtain ⟨rfl, rfl⟩ : k = 0 ∧ z = y := by
          simpa [Progress.state, List.getElem?_singleton] using hk
        rw [Progress.state] at hgrown
        simp [Progress.state]
        omega

/-- At each state of a run from a blank tape there are cells as far as the pointer has come. -/
theorem size_eq_furthest (h : x.Bounded p) (hblank : x.tape = .blank) (hstart : x.pointer = 0)
    (ws : List (Option Bool)) {k : Nat} (hk : (x.states ws)[k]? = some y) :
    y.tape.size = furthest ((x.states ws).take (k + 1)) + 1 :=
  size_states h (by rw [hblank, hstart]; rfl) ws hk

end Execution
end ByteTape
