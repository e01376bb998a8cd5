import ByteTape.Instruction

/-! A program text, indexed by character. Comments keep their places, so a
position in the text is also a position in the file it came from. -/
namespace ByteTape

/-- Every character of the text, in order. Nothing is checked before a run. -/
structure Program where
  chars : Array Char
  deriving DecidableEq

namespace Program

def ofList (cs : List Char) : Program := ⟨cs.toArray⟩

def ofString (s : String) : Program := ofList s.toList

def toList (p : Program) : List Char := p.chars.toList

def source (p : Program) : String := String.ofList p.toList

def size (p : Program) : Nat := p.chars.size

def isEmpty (p : Program) : Bool := p.chars.isEmpty

/-- The character at a position; positions count characters, not bytes. -/
def get? (p : Program) (i : Nat) : Option Char := p.chars[i]?

@[simp] theorem toList_ofList (cs : List Char) : (ofList cs).toList = cs := rfl

theorem size_eq_length (p : Program) : p.size = p.toList.length := by
  simp [size, toList]

theorem get?_eq_getElem? (p : Program) (i : Nat) : p.get? i = p.toList[i]? := by
  simp [get?, toList]

theorem get?_eq_none_iff {p : Program} {i : Nat} : p.get? i = none ↔ p.size ≤ i := by
  simp [get?, size]

theorem lt_size_of_get? {p : Program} {i : Nat} {c : Char} (h : p.get? i = some c) :
    i < p.size := by
  apply Nat.lt_of_not_le
  intro hi
  rw [get?_eq_none_iff.mpr hi] at h
  cases h

theorem exists_get? {p : Program} {i : Nat} (h : i < p.size) : ∃ c, p.get? i = some c := by
  cases hc : p.get? i with
  | none => exact absurd (get?_eq_none_iff.mp hc) (Nat.not_le.mpr h)
  | some c => exact ⟨c, rfl⟩

end Program
end ByteTape
