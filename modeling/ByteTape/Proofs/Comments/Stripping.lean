import ByteTape.Proofs.Bracket.Memo
import Mathlib.Data.List.Count
import Mathlib.Data.Nat.Find

/-! A program without its comments. Its positions count the instructions of the program, and its
brackets match as they do there. -/
namespace ByteTape

def Instruction.isSymbol (c : Char) : Bool := (ofChar? c).isSome

@[simp] theorem Instruction.isSymbol_symbol (a : Instruction) : isSymbol a.symbol = true := by
  simp [isSymbol]

open ByteTape.Bracket

namespace Program
open Instruction

def stripped (p : Program) : Program := ofList (p.toList.filter isSymbol)

def rank (p : Program) (i : Nat) : Nat := (p.toList.take i).countP isSymbol

variable {p : Program} {i j k : Nat} {a b : Instruction}

private theorem rank_succ {c : Char} (h : p.get? i = some c) :
    p.rank (i + 1) = p.rank i + if isSymbol c then 1 else 0 := by
  rw [get?_eq_getElem?] at h
  simp [rank, List.take_add_one, h, List.countP_singleton]

theorem rank_succ_of_symbol (h : p.get? i = some a.symbol) : p.rank (i + 1) = p.rank i + 1 := by
  simp [rank_succ h]

theorem rank_succ_of_comment {c : Char} (h : p.get? i = some c) (hc : ofChar? c = none) :
    p.rank (i + 1) = p.rank i := by
  simp [rank_succ h, isSymbol, hc]

private theorem rank_mono (h : i ≤ j) : p.rank i ≤ p.rank j :=
  (List.take_sublist_take_left h).countP_le

private theorem rank_lt (h : p.get? i = some a.symbol) (hij : i < j) : p.rank i < p.rank j := by
  have hsucc := rank_succ_of_symbol h
  have hmono : p.rank (i + 1) ≤ p.rank j := rank_mono hij
  omega

private theorem take_stripped (p : Program) (i : Nat) :
    p.stripped.toList.take (p.rank i) = (p.toList.take i).filter isSymbol := by
  have hsplit : p.stripped.toList =
      (p.toList.take i).filter isSymbol ++ (p.toList.drop i).filter isSymbol := by
    rw [← List.filter_append, List.take_append_drop]
    rfl
  rw [hsplit, rank, List.countP_eq_length_filter, List.take_left]

theorem get?_stripped (h : p.get? i = some a.symbol) :
    p.stripped.get? (p.rank i) = some a.symbol := by
  have htake := p.take_stripped (i + 1)
  have hlength : ((p.toList.take i).filter isSymbol).length = p.rank i :=
    List.countP_eq_length_filter.symm
  rw [rank_succ_of_symbol h] at htake
  rw [get?_eq_getElem?] at h ⊢
  rw [← List.getElem?_take_of_lt (Nat.lt_succ_self (p.rank i)), htake]
  simp [List.take_add_one, h, List.filter_append, ← hlength]

theorem rank_of_size_le (h : p.size ≤ i) : p.rank i = p.stripped.size := by
  rw [size_eq_length] at h
  rw [rank, List.take_of_length_le h, List.countP_eq_length_filter, size_eq_length]
  rfl

private theorem exists_rank (h : k < p.stripped.size) :
    ∃ i, p.rank i = k ∧ ∃ a : Instruction, p.get? i = some a.symbol := by
  have hend : ∃ i, k < p.rank (i + 1) :=
    ⟨p.size, by rwa [rank_of_size_le (Nat.le_succ _)]⟩
  have hover := Nat.find_spec hend
  have hbefore : p.rank (Nat.find hend) ≤ k := by
    cases hi : Nat.find hend with
    | zero => simp [rank]
    | succ i => exact Nat.not_lt.mp (Nat.find_min hend (by omega))
  refine ⟨Nat.find hend, ?_⟩
  generalize Nat.find hend = i at hover hbefore
  cases hc : p.get? i with
  | none =>
    have hsize := get?_eq_none_iff.mp hc
    rw [rank_of_size_le hsize] at hbefore
    omega
  | some c =>
    cases ha : ofChar? c with
    | none =>
      rw [rank_succ_of_comment hc ha] at hover
      omega
    | some a =>
      obtain rfl := ofChar?_eq_some_iff.mp ha
      rw [rank_succ_of_symbol hc] at hover
      exact ⟨by omega, a, rfl⟩

private theorem rank_lt_rank_iff (hi : p.get? i = some a.symbol) : p.rank i < p.rank j ↔ i < j := by
  constructor
  · intro h
    by_contra hji
    have hmono : p.rank j ≤ p.rank i := rank_mono (Nat.not_lt.mp hji)
    omega
  · exact rank_lt hi

theorem rank_inj (hi : p.get? i = some a.symbol) (hj : p.get? j = some b.symbol) :
    p.rank i = p.rank j ↔ i = j := by
  have hij := rank_lt_rank_iff (j := j) hi
  have hji := rank_lt_rank_iff (j := i) hj
  omega

end Program

namespace Bracket
open Program
variable {p : Program} {i j k : Nat} {a b : Instruction}

private theorem weight_of_comment {c : Char} (h : Instruction.isSymbol c = false) :
    weight c = 0 := by
  apply weight_eq_zero
  · rintro rfl
    cases h
  · rintro rfl
    cases h

private theorem sum_weight_filter (cs : List Char) :
    ((cs.filter Instruction.isSymbol).map weight).sum = (cs.map weight).sum := by
  induction cs with
  | nil => rfl
  | cons c cs ih =>
    cases hc : Instruction.isSymbol c with
    | true => simp [List.filter_cons_of_pos hc, ih]
    | false => simp [hc, ih, weight_of_comment hc]

/-- Comments do not matter to the height. -/
theorem height_stripped (p : Program) (i : Nat) :
    height p.stripped (p.rank i) = height p i := by
  rw [height, take_stripped, sum_weight_filter]
  rfl

/-- Brackets match in a program just if they do without its comments. -/
theorem matched_stripped (hi : p.get? i = some a.symbol) (hj : p.get? j = some b.symbol) :
    Matched p.stripped (p.rank i) (p.rank j) ↔ Matched p i j := by
  have hlevel : height p.stripped (p.rank j + 1) = height p (j + 1) := by
    rw [← rank_succ_of_symbol hj, height_stripped]
  constructor
  · intro h
    refine ⟨?_, ?_, (rank_lt_rank_iff hi).mp h.lt, ?_, ?_⟩
    · rw [hi, ← get?_stripped hi, h.opening]
    · rw [hj, ← get?_stripped hj, h.closing]
    · rw [← hlevel, h.level, height_stripped]
    · intro k hik hkj
      rw [← height_stripped p i, ← height_stripped p k]
      exact h.above _ (rank_lt hi hik) (rank_mono hkj)
  · intro h
    refine ⟨?_, ?_, rank_lt hi h.lt, ?_, ?_⟩
    · rw [get?_stripped hi, ← hi, h.opening]
    · rw [get?_stripped hj, ← hj, h.closing]
    · rw [hlevel, h.level, height_stripped]
    · intro k' hik hkj
      obtain ⟨k, rfl, c, hk⟩ := exists_rank (lt_of_le_of_lt hkj (lt_size_of_get? (get?_stripped hj)))
      rw [height_stripped, height_stripped]
      have hle : ¬ j < k := fun hjk => absurd (rank_lt hj hjk) (Nat.not_lt.mpr hkj)
      exact h.above k ((rank_lt_rank_iff hi).mp hik) (Nat.not_lt.mp hle)

theorem partner_stripped (hi : p.get? i = some a.symbol) (hj : p.get? j = some b.symbol) :
    Partner p.stripped (p.rank i) (p.rank j) ↔ Partner p i j :=
  or_congr (matched_stripped hi hj) (matched_stripped hj hi)

theorem Partner.symbol (h : Partner p i j) : ∃ a : Instruction, p.get? j = some a.symbol := by
  rcases h with h | h
  · exact ⟨.loopClose, h.closing⟩
  · exact ⟨.loopOpen, h.opening⟩

/-- A bracket without a partner has none without the comments either. -/
theorem unpaired_stripped (hi : p.get? i = some a.symbol) (h : ∀ j, ¬ Partner p i j) (k : Nat) :
    ¬ Partner p.stripped (p.rank i) k := by
  intro hk
  obtain ⟨j, rfl, b, hj⟩ := exists_rank hk.symm.lt_size
  exact h j ((partner_stripped hi hj).mp hk)

end Bracket
end ByteTape
