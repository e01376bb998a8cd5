import ByteTape.Bracket.Scan

/-! Bracket pairs already found. A completed scan is remembered under both of its
ends, so neither end is scanned from again. -/
namespace ByteTape

/-- `partner[i]` is the other end of the pair at `i`, once known. -/
structure JumpMemo where
  partner : Array (Option Nat)
  scans : Nat
  deriving DecidableEq

namespace JumpMemo

def empty (size : Nat) : JumpMemo := ⟨Array.replicate size none, 0⟩

def lookup? (m : JumpMemo) (i : Nat) : Option Nat := m.partner[i]?.join

def store (m : JumpMemo) (i target : Nat) : Except IndexError JumpMemo :=
  if i < m.partner.size then
    .ok { m with partner := m.partner.setIfInBounds i (some target) }
  else
    .error ⟨m.partner.size, i⟩

/-- The partner of the bracket at `start`, from the memo if it is there. The
direction matters only to a scan. A scan that succeeds is counted and then stored
under `start` and under its target; a store out of range keeps what came before it. -/
def resolve (m : JumpMemo) (p : Program) (start : Nat) (d : Direction) :
    JumpMemo × Except Fault Nat :=
  match m.lookup? start with
  | some target => (m, .ok target)
  | none =>
    match Bracket.scan p start d with
    | .error e => (m, .error (.error e))
    | .ok target =>
      let counted := { m with scans := m.scans + 1 }
      match counted.store start target with
      | .error e => (counted, .error (.outOfRange e))
      | .ok half =>
        match half.store target start with
        | .error e => (half, .error (.outOfRange e))
        | .ok full => (full, .ok target)

@[simp] theorem lookup?_empty (size i : Nat) : (empty size).lookup? i = none := by
  simp only [lookup?, empty, Array.getElem?_replicate]
  split <;> rfl

theorem lookup?_store {m m' : JumpMemo} {i target : Nat} (h : m.store i target = .ok m') (j : Nat) :
    m'.lookup? j = if j = i then some target else m.lookup? j := by
  unfold store at h
  split at h
  · rename_i hi
    obtain rfl := Except.ok.inj h
    simp only [lookup?, Array.getElem?_setIfInBounds]
    by_cases hj : j = i
    · subst hj
      simp [hi]
    · simp [hj, Ne.symm hj]
  · cases h

end JumpMemo
end ByteTape
