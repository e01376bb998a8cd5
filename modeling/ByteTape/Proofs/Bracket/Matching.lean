import ByteTape.Proofs.Bracket.Height

/-! Two brackets that face each other, described by the height between them. Both
scans find exactly this partner, and a bracket has at most one. -/
namespace ByteTape.Bracket

/-- The height leaves the level of `i` there and first comes back to it behind `j`. -/
structure Matched (p : Program) (i j : Nat) : Prop where
  opening : p.get? i = some '['
  closing : p.get? j = some ']'
  lt : i < j
  level : height p (j + 1) = height p i
  above : ∀ k, i < k → k ≤ j → height p i < height p k

namespace Matched
variable {p : Program} {i j i' j' : Nat}

theorem opening_eq {c : Char} (h : Matched p i j) (hc : p.get? i = some c) : c = '[' :=
  Option.some.inj (hc.symm.trans h.opening)

theorem closing_eq {c : Char} (h : Matched p i j) (hc : p.get? j = some c) : c = ']' :=
  Option.some.inj (hc.symm.trans h.closing)

/-- No bracket opens one pair and closes another. -/
theorem not_closing (h : Matched p i j) (i' : Nat) : ¬ Matched p i' i := fun h' =>
  absurd (h.opening_eq h'.closing) (by decide)

theorem height_closing (h : Matched p i j) : height p j = height p i + 1 := by
  have hs := height_succ h.closing
  have hl := h.level
  simp only [weight] at hs
  omega

/-- Two pairs are the same, or one lies inside the other, or they lie apart. -/
theorem nested_or_disjoint (h : Matched p i j) (h' : Matched p i' j') :
    (i = i' ∧ j = j') ∨ (i < i' ∧ j' < j) ∨ (i' < i ∧ j < j') ∨ j < i' ∨ j' < i := by
  have hl := h.level
  have hl' := h'.level
  have hj := h.height_closing
  have hj' := h'.height_closing
  have hlt := h.lt
  have hlt' := h'.lt
  by_contra hne
  simp only [not_or, not_and, Nat.not_lt] at hne
  obtain ⟨heq, hin, hout, hji, hji'⟩ := hne
  rcases Nat.lt_trichotomy i i' with hi | rfl | hi
  · -- `i'` opens inside the first pair, which closes before `j'` or at it
    have hle := hin hi
    have hlow := h'.above j
    have hopen := h.above i' hi hji
    have hne : i' ≠ j := fun he => h'.not_closing i (he ▸ h)
    have := hlow (by omega) hle
    omega
  · have hjj := heq rfl
    rcases Nat.lt_or_gt_of_ne hjj with hj | hj
    · have := h'.above (j + 1) (by omega) (by omega)
      omega
    · have := h.above (j' + 1) (by omega) (by omega)
      omega
  · have hle := hout hi
    have hopen := h'.above i hi hji'
    have hne : i ≠ j' := fun he => h.not_closing i' (he ▸ h')
    have := h.above j' (by omega) hle
    omega

theorem right_unique (h : Matched p i j) (h' : Matched p i j') : j = j' := by
  have := h.nested_or_disjoint h'
  have := h.lt
  have := h'.lt
  omega

theorem left_unique (h : Matched p i j) (h' : Matched p i' j) : i = i' := by
  have := h.nested_or_disjoint h'
  have := h.lt
  have := h'.lt
  omega

end Matched

theorem scan_eq_ok_iff {p : Program} {i j : Nat} {d : Direction} :
    scan p i d = .ok j ↔ partner? p i d = some j := by
  unfold scan
  cases partner? p i d <;> simp

theorem scan_eq_error_iff {p : Program} {i : Nat} {d : Direction} {e : RunError} :
    scan p i d = .error e ↔ (∀ j, scan p i d ≠ .ok j) ∧ e = .unmatchedBracket i d.side := by
  unfold scan
  cases partner? p i d with
  | none => simp [eq_comm]
  | some j => simp

/-- The scan to the right from an opening bracket finds the bracket that it matches. -/
theorem scan_forward_iff {p : Program} {i j : Nat} :
    p.get? i = some '[' ∧ scan p i .forward = .ok j ↔ Matched p i j := by
  rw [scan_eq_ok_iff, partner?, ahead_eq_some_iff Nat.one_pos]
  constructor
  · intro h
    obtain ⟨hi, hij, _, hjp, hl, ha⟩ := h
    have hopen : height p (i + 1) = height p i + 1 := height_succ hi
    have habove : ∀ k, i < k → k ≤ j → height p i < height p k := by
      intro k hik hkj
      by_cases hk : k = i + 1
      · subst hk
        omega
      · have := ha k (by omega) hkj
        omega
    obtain ⟨c, hc⟩ := Program.exists_get? hjp
    have hfall := height_succ hc
    have := habove j (by omega) le_rfl
    have hcl : c = ']' := weight_neg_iff.mp (by omega)
    exact ⟨hi, hcl ▸ hc, by omega, by omega, habove⟩
  · intro h
    have hopen : height p (i + 1) = height p i + 1 := height_succ h.opening
    have hlt := h.lt
    have hjp := Program.lt_size_of_get? h.closing
    have hl := h.level
    refine ⟨h.opening, by omega, by omega, hjp, by omega, ?_⟩
    intro k hik hkj
    have := h.above k (by omega) hkj
    omega

/-- The scan to the left from a closing bracket finds the bracket that it matches. -/
theorem scan_backward_iff {p : Program} {i j : Nat} :
    p.get? j = some ']' ∧ scan p j .backward = .ok i ↔ Matched p i j := by
  rw [scan_eq_ok_iff, partner?, behind_eq_some_iff Nat.one_pos]
  constructor
  · intro h
    obtain ⟨hj, hjp, hij, hl, ha⟩ := h
    have hclose : height p (j + 1) = height p j + -1 := height_succ hj
    have habove : ∀ k, i < k → k ≤ j → height p i < height p k := by
      intro k hik hkj
      by_cases hk : k = j
      · subst hk
        omega
      · have := ha k hik (by omega)
        omega
    obtain ⟨c, hc⟩ := Program.exists_get? (p := p) (i := i) (by omega)
    have hrise := height_succ hc
    have := habove (i + 1) (by omega) (by omega)
    have hop : c = '[' := weight_pos_iff.mp (by omega)
    exact ⟨hop ▸ hc, hj, hij, by omega, habove⟩
  · intro h
    have hjp := Program.lt_size_of_get? h.closing
    have hj := h.height_closing
    refine ⟨h.closing, hjp.le, h.lt, by omega, ?_⟩
    intro k hik hkj
    have := h.above k hik (by omega)
    omega

end ByteTape.Bracket
