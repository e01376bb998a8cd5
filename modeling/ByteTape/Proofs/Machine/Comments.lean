import ByteTape.Proofs.Machine.Moments
import Mathlib.Data.Nat.Find

/-! Comments. A run passes them one by one without any other effect, until it comes to an
instruction or to the end of the program. -/
namespace ByteTape

def Program.isComment (p : Program) (i : Nat) : Bool :=
  (p.get? i).any fun c => (Instruction.ofChar? c).isNone

namespace Program
variable {p : Program} {i : Nat}

theorem isComment_iff :
    p.isComment i = true ↔ ∃ c, p.get? i = some c ∧ Instruction.ofChar? c = none := by
  simp [isComment, Option.any_eq_true]

theorem not_isComment_iff : p.isComment i = false ↔
    p.size ≤ i ∨ ∃ a : Instruction, p.get? i = some a.symbol := by
  cases hc : p.get? i with
  | none => simp [isComment, hc, get?_eq_none_iff.mp hc]
  | some c =>
    have hlt := lt_size_of_get? hc
    cases ha : Instruction.ofChar? c with
    | none =>
      have hne : ∀ a : Instruction, c ≠ a.symbol := by
        rintro a rfl
        rw [Instruction.ofChar?_symbol] at ha
        cases ha
      simp [isComment, hc, ha, hne, hlt]
    | some a => simp [isComment, hc, Instruction.ofChar?_eq_some_iff.mp ha]

/-- From every position the comments that follow lead to one that is not a comment. -/
theorem exists_next (p : Program) (i : Nat) : ∃ d, p.isComment (i + d) = false ∧
    ∀ k, i ≤ k → k < i + d → p.isComment k = true := by
  have hend : ∃ d, p.isComment (i + d) = false :=
    ⟨p.size, not_isComment_iff.mpr (.inl (Nat.le_add_left _ _))⟩
  refine ⟨Nat.find hend, Nat.find_spec hend, ?_⟩
  intro k hik hk
  have hmin := Nat.find_min hend (m := k - i) (by omega)
  rw [Nat.add_sub_of_le hik] at hmin
  simpa using hmin

/-- Comments that lead to the end of the program have no instruction behind them. -/
theorem end_of_comments {d : Nat} (hi : i ≤ p.size)
    (h : ∀ k, i ≤ k → k < i + d → p.isComment k = true) (hd : p.size ≤ i + d) :
    i + d = p.size ∧ ∀ j (a : Instruction), i ≤ j → p.get? j ≠ some a.symbol := by
  have hcomment (j : Nat) (hj : i ≤ j) (hlt : j < i + d) :
      ∃ c, p.get? j = some c ∧ Instruction.ofChar? c = none :=
    isComment_iff.mp (h j hj hlt)
  have hend : i + d = p.size := by
    apply le_antisymm _ hd
    rcases Nat.eq_zero_or_pos d with rfl | hpos
    · exact hi
    · obtain ⟨c, hc, _⟩ := hcomment (i + d - 1) (by omega) (by omega)
      have := lt_size_of_get? hc
      omega
  refine ⟨hend, ?_⟩
  intro j a hj ha
  obtain ⟨c, hc, hnone⟩ := hcomment j hj (hend ▸ lt_size_of_get? ha)
  obtain rfl := Option.some.inj (ha.symm.trans hc)
  rw [Instruction.ofChar?_symbol] at hnone
  cases hnone

end Program

namespace Execution
variable {σ : Type} [ByteOutput σ] {x : Execution σ}

theorem tick_of_end (h : x.program.size ≤ x.ip) : x.tick = .ended x (.ok ()) := by
  simp [tick, Program.get?_eq_none_iff.mpr h]

theorem tick_of_comment (h : x.program.isComment x.ip = true) :
    x.tick = .running { x with ip := x.ip + 1 } := by
  obtain ⟨c, hc, hcomment⟩ := Program.isComment_iff.mp h
  simp [tick, hc, hcomment]

theorem ticks_of_comments {d : Nat}
    (h : ∀ k, x.ip ≤ k → k < x.ip + d → x.program.isComment k = true) :
    x.ticks d = .running { x with ip := x.ip + d } := by
  induction d generalizing x with
  | zero => rfl
  | succ d ih =>
    rw [ticks_succ (tick_of_comment (h x.ip le_rfl (by omega))), ih]
    · simp only [Nat.add_right_comm]
      rfl
    · intro k hk hlt
      exact h k (by simp only at hk; omega) (by simp only at hlt; omega)

end Execution
end ByteTape
