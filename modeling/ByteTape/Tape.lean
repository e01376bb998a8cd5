import ByteTape.Error

/-! Byte cells that grow to the right on demand. A tape begins as one zero cell;
touching the index just past the last cell appends one more zero. -/
namespace ByteTape

structure Tape where
  cells : Array UInt8
  deriving DecidableEq

namespace Tape

def blank : Tape := ⟨#[0]⟩

def size (t : Tape) : Nat := t.cells.size

def isEmpty (t : Tape) : Bool := t.cells.isEmpty

/-- Cells that were never reached read as zero. -/
def get (t : Tape) (i : Nat) : UInt8 := t.cells.getD i 0

/-- One more zero cell when `i` is the index just past the last cell. -/
def reach (t : Tape) (i : Nat) : Tape :=
  if i = t.cells.size then ⟨t.cells.push 0⟩ else t

/-- An index is in range up to one past the last cell. -/
def check (t : Tape) (i : Nat) : Except IndexError Unit :=
  if i ≤ t.cells.size then .ok () else .error ⟨t.cells.size, i⟩

def update (t : Tape) (i : Nat) (f : UInt8 → UInt8) : Tape :=
  ⟨(t.reach i).cells.modify i f⟩

def touch (t : Tape) (i : Nat) : Except IndexError Tape :=
  (t.check i).map fun _ => t.reach i

def modify (t : Tape) (i : Nat) (f : UInt8 → UInt8) : Except IndexError Tape :=
  (t.check i).map fun _ => t.update i f

def set (t : Tape) (i : Nat) (b : UInt8) : Except IndexError Tape :=
  t.modify i fun _ => b

@[simp] theorem size_blank : blank.size = 1 := rfl

@[simp] theorem get_blank (i : Nat) : blank.get i = 0 := by
  cases i <;> rfl

theorem check_eq_ok_iff {t : Tape} {i : Nat} : t.check i = .ok () ↔ i ≤ t.size := by
  unfold check size
  split <;> simp_all

theorem size_reach (t : Tape) (i : Nat) :
    (t.reach i).size = if i = t.size then t.size + 1 else t.size := by
  unfold reach size
  split <;> simp_all

theorem reach_of_lt {t : Tape} {i : Nat} (h : i < t.size) : t.reach i = t := by
  unfold reach
  rw [if_neg]
  exact Nat.ne_of_lt h

/-- Growing shows nothing that a read could not already see. -/
@[simp] theorem get_reach (t : Tape) (i j : Nat) : (t.reach i).get j = t.get j := by
  unfold reach get
  split
  · rename_i h
    simp only [Array.getD_eq_getD_getElem?, Array.getElem?_push]
    split <;> simp_all
  · rfl

@[simp] theorem size_update (t : Tape) (i : Nat) (f : UInt8 → UInt8) :
    (t.update i f).size = (t.reach i).size := by
  simp [update, size]

theorem get_update {t : Tape} {i : Nat} (h : i ≤ t.size) (f : UInt8 → UInt8) (j : Nat) :
    (t.update i f).get j = if j = i then f (t.get i) else t.get j := by
  have hlt : i < (t.reach i).cells.size := by
    simp only [size] at h
    unfold reach
    split
    · simp; omega
    · omega
  have hg := get_reach t i
  simp only [get, Array.getD_eq_getD_getElem?] at hg ⊢
  rw [← hg i, ← hg j]
  simp only [update, Array.getElem?_modify]
  by_cases hj : j = i
  · subst hj
    simp [hlt]
  · simp [hj, Ne.symm hj]

end Tape
end ByteTape
