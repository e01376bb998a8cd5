import ByteTape.Bracket.Memo
import ByteTape.Proofs.Bracket.Matching

/-! Memos that hold nothing but matches. Such a memo answers as a scan would, from
either end of a pair and after any earlier failures. -/
namespace ByteTape

def Direction.bracket : Direction → Char
  | .forward => '['
  | .backward => ']'

namespace Bracket

/-- The brackets at the two positions match, whichever of them comes first. -/
def Partner (p : Program) (i j : Nat) : Prop := Matched p i j ∨ Matched p j i

theorem Partner.symm {p : Program} {i j : Nat} (h : Partner p i j) : Partner p j i := Or.symm h

theorem Partner.ne {p : Program} {i j : Nat} (h : Partner p i j) : i ≠ j := by
  rcases h with h | h
  · exact h.lt.ne
  · exact h.lt.ne'

theorem Partner.lt_size {p : Program} {i j : Nat} (h : Partner p i j) : i < p.size := by
  rcases h with h | h
  · exact Program.lt_size_of_get? h.opening
  · exact Program.lt_size_of_get? h.closing

theorem Partner.unique {p : Program} {i j j' : Nat} (h : Partner p i j) (h' : Partner p i j') :
    j = j' := by
  rcases h with h | h <;> rcases h' with h' | h'
  · exact h.right_unique h'
  · exact absurd h' (h.not_closing j')
  · exact absurd h (h'.not_closing j)
  · exact h.left_unique h'

/-- A pair of brackets, of which the one at `i` begins a jump in the direction `d`. -/
theorem Partner.matched_of_bracket {p : Program} {i j : Nat} {d : Direction} (h : Partner p i j)
    (hb : p.get? i = some d.bracket) :
    (d = .forward ∧ Matched p i j) ∨ (d = .backward ∧ Matched p j i) := by
  cases d with
  | forward =>
    rcases h with h | h
    · exact .inl ⟨rfl, h⟩
    · exact absurd (h.closing_eq hb) (by decide)
  | backward =>
    rcases h with h | h
    · exact absurd (h.opening_eq hb) (by decide)
    · exact .inr ⟨rfl, h⟩

/-- From a bracket of its own direction a scan finds the partner. -/
theorem scan_eq_ok_iff_partner {p : Program} {i j : Nat} {d : Direction}
    (hb : p.get? i = some d.bracket) : scan p i d = .ok j ↔ Partner p i j := by
  constructor
  · intro h
    cases d with
    | forward => exact .inl (scan_forward_iff.mp ⟨hb, h⟩)
    | backward => exact .inr (scan_backward_iff.mp ⟨hb, h⟩)
  · intro h
    rcases h.matched_of_bracket hb with ⟨rfl, h⟩ | ⟨rfl, h⟩
    · exact (scan_forward_iff.mpr h).2
    · exact (scan_backward_iff.mpr h).2

/-- From a bracket without a partner a scan fails. -/
theorem scan_of_unpaired {p : Program} {i : Nat} {d : Direction} (hb : p.get? i = some d.bracket)
    (hp : ∀ j, ¬ Partner p i j) : scan p i d = .error (.unmatchedBracket i d.side) :=
  scan_eq_error_iff.mpr ⟨fun j h => hp j ((scan_eq_ok_iff_partner hb).mp h), rfl⟩

end Bracket

namespace JumpMemo
open ByteTape.Bracket
variable {p : Program} {m : JumpMemo}

def Sound (p : Program) (m : JumpMemo) : Prop := ∀ i j, m.lookup? i = some j → Partner p i j

theorem sound_empty (p : Program) (size : Nat) : (empty size).Sound p := by
  intro i j h
  rw [lookup?_empty] at h
  cases h

def learn (m : JumpMemo) (i j : Nat) : JumpMemo :=
  ⟨(m.partner.setIfInBounds i (some j)).setIfInBounds j (some i), m.scans + 1⟩

@[simp] theorem size_learn (m : JumpMemo) (i j : Nat) :
    (m.learn i j).partner.size = m.partner.size := by
  simp [learn]

private theorem store_eq_ok {i : Nat} (hi : i < m.partner.size) (j : Nat) :
    m.store i j = .ok { m with partner := m.partner.setIfInBounds i (some j) } := by
  simp [store, hi]

theorem lookup?_learn {i j : Nat} (hi : i < m.partner.size) (hj : j < m.partner.size) (k : Nat) :
    (m.learn i j).lookup? k = if k = j then some i else if k = i then some j else m.lookup? k := by
  let half : JumpMemo := { m with partner := m.partner.setIfInBounds i (some j) }
  have hhalf : half.store j i = .ok { half with partner := half.partner.setIfInBounds j (some i) } :=
    store_eq_ok (by simpa [half] using hj) i
  have hfull := lookup?_store hhalf k
  rw [lookup?_store (store_eq_ok hi j) k] at hfull
  exact hfull

private theorem Sound.learn {i j : Nat} (hs : m.Sound p) (hn : p.size ≤ m.partner.size)
    (hp : Partner p i j) : (m.learn i j).Sound p := by
  intro k l h
  have hi := hp.lt_size
  have hj := hp.symm.lt_size
  rw [lookup?_learn (by omega) (by omega)] at h
  split at h
  · rename_i hk
    obtain rfl := Option.some.inj h
    exact hk ▸ hp.symm
  · split at h
    · rename_i hk
      obtain rfl := Option.some.inj h
      exact hk ▸ hp
    · exact hs k l h

/-- The memo after a jump from `i` to `j`: a partner that was known costs no scan. -/
def visit (m : JumpMemo) (i j : Nat) : JumpMemo :=
  match m.lookup? i with
  | some _ => m
  | none => m.learn i j

@[simp] theorem size_visit (m : JumpMemo) (i j : Nat) :
    (m.visit i j).partner.size = m.partner.size := by
  unfold visit
  split
  · rfl
  · exact size_learn m i j

theorem Sound.visit {i j : Nat} (hs : m.Sound p) (hn : p.size ≤ m.partner.size)
    (hp : Partner p i j) : (m.visit i j).Sound p := by
  unfold JumpMemo.visit
  split
  · exact hs
  · exact hs.learn hn hp

/-- A bracket with a partner is resolved to it, known or not. -/
theorem resolve_of_partner {i j : Nat} {d : Direction} (hs : m.Sound p)
    (hn : p.size ≤ m.partner.size) (hb : p.get? i = some d.bracket) (hp : Partner p i j) :
    m.resolve p i d = (m.visit i j, .ok j) := by
  cases hl : m.lookup? i with
  | some k =>
    obtain rfl := (hs i k hl).unique hp
    simp [resolve, visit, hl]
  | none =>
    have hi := hp.lt_size
    have hj := hp.symm.lt_size
    simp only [resolve, visit, hl, (scan_eq_ok_iff_partner hb).mpr hp]
    rw [store_eq_ok (by simp only; omega)]
    simp only
    rw [store_eq_ok (by simp only [Array.size_setIfInBounds]; omega)]
    rfl

/-- At a bracket without a partner the memo knows nothing and the scan fails. -/
theorem resolve_of_unpaired {i : Nat} {d : Direction} (hs : m.Sound p)
    (hb : p.get? i = some d.bracket) (hp : ∀ j, ¬ Partner p i j) :
    m.resolve p i d = (m, .error (.error (.unmatchedBracket i d.side))) := by
  have hl : m.lookup? i = none := by
    cases hl : m.lookup? i with
    | none => rfl
    | some j => exact absurd (hs i j hl) (hp j)
  simp [resolve, hl, scan_of_unpaired hb hp]

end JumpMemo
end ByteTape
