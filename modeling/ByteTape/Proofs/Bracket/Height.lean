import ByteTape.Bracket.Scan
import Mathlib.Algebra.BigOperators.Group.List.Basic
import Mathlib.Algebra.Order.Ring.Int

/-! Nesting height along a program text: one up at each opening bracket, one down at
each closing one. A scan is a first return of this height, from either end. -/
namespace ByteTape.Bracket

def weight : Char → Int
  | '[' => 1
  | ']' => -1
  | _ => 0

def height (p : Program) (k : Nat) : Int := ((p.toList.take k).map weight).sum

theorem height_succ {p : Program} {k : Nat} {c : Char} (h : p.get? k = some c) :
    height p (k + 1) = height p k + weight c := by
  rw [Program.get?_eq_getElem?] at h
  simp [height, List.take_add_one, h]

theorem weight_pos_iff {c : Char} : 0 < weight c ↔ c = '[' := by
  constructor
  · intro h
    unfold weight at h
    split at h
    · rfl
    · omega
    · omega
  · rintro rfl
    decide

theorem weight_neg_iff {c : Char} : weight c < 0 ↔ c = ']' := by
  constructor
  · intro h
    unfold weight at h
    split at h
    · omega
    · rfl
    · omega
  · rintro rfl
    decide

theorem weight_eq_zero {c : Char} (ho : c ≠ '[') (hc : c ≠ ']') : weight c = 0 := by
  have hp := mt weight_pos_iff.mp ho
  have hn := mt weight_neg_iff.mp hc
  omega

private theorem depthAfter_comment {c : Char} (ho : c ≠ '[') (hc : c ≠ ']') (d : Direction)
    (depth : Nat) : d.depthAfter depth c = depth := by
  unfold Direction.depthAfter
  split <;> first | rfl | contradiction

theorem forward_depthAfter {d : Nat} (hd : 0 < d) (c : Char) :
    (Direction.forward.depthAfter d c : Int) = d + weight c := by
  by_cases ho : c = '['
  · subst ho
    rfl
  · by_cases hc : c = ']'
    · subst hc
      show ((d - 1 : Nat) : Int) = d + -1
      omega
    · rw [weight_eq_zero ho hc, depthAfter_comment ho hc, add_zero]

theorem backward_depthAfter {d : Nat} (hd : 0 < d) (c : Char) :
    (Direction.backward.depthAfter d c : Int) = d - weight c := by
  by_cases ho : c = '['
  · subst ho
    show ((d - 1 : Nat) : Int) = d - 1
    omega
  · by_cases hc : c = ']'
    · subst hc
      rfl
    · rw [weight_eq_zero ho hc, depthAfter_comment ho hc, sub_zero]

/-- A walk to the right ends at the first position after which the height has
fallen by the depth that it started with. -/
theorem ahead_eq_some_iff {p : Program} {n i d j : Nat} (hd : 0 < d) :
    ahead p n i d = some j ↔
      i ≤ j ∧ j < i + n ∧ j < p.size ∧ height p (j + 1) + d = height p i ∧
        ∀ k, i < k → k ≤ j → height p i < height p k + d := by
  induction n generalizing i d with
  | zero =>
    simp only [ahead, reduceCtorEq, false_iff]
    omega
  | succ n ih =>
    cases hc : p.get? i with
    | none =>
      have hi := Program.get?_eq_none_iff.mp hc
      simp only [ahead, hc, reduceCtorEq, false_iff]
      omega
    | some c =>
      have hi := Program.lt_size_of_get? hc
      have hh := height_succ hc
      have hw := forward_depthAfter hd c
      cases hd' : Direction.forward.depthAfter d c with
      | zero =>
        rw [hd'] at hw
        simp only [ahead, hc, hd', Option.some.injEq]
        constructor
        · rintro rfl
          exact ⟨le_rfl, by omega, hi, by omega, by omega⟩
        · intro h
          obtain ⟨hij, _, _, _, hk⟩ := h
          by_contra hne
          have := hk (i + 1) (by omega) (by omega)
          omega
      | succ e =>
        rw [hd'] at hw
        simp only [ahead, hc, hd']
        rw [ih (Nat.succ_pos e)]
        constructor
        · intro h
          obtain ⟨hij, hjn, hjp, he, hk⟩ := h
          refine ⟨by omega, by omega, hjp, by omega, ?_⟩
          intro k hik hkj
          by_cases hki : k = i + 1
          · subst hki
            omega
          · have := hk k (by omega) hkj
            omega
        · intro h
          obtain ⟨hij, hjn, hjp, he, hk⟩ := h
          have hne : i ≠ j := by
            rintro rfl
            omega
          refine ⟨by omega, by omega, hjp, by omega, ?_⟩
          intro k hik hkj
          have := hk k (by omega) hkj
          omega

/-- A walk to the left ends at the last position before which the height was lower
by the depth that it started with. -/
theorem behind_eq_some_iff {p : Program} {i d j : Nat} (hd : 0 < d) :
    behind p i d = some j ↔
      i ≤ p.size ∧ j < i ∧ height p i = height p j + d ∧
        ∀ k, j < k → k < i → height p i < height p k + d := by
  induction i generalizing d with
  | zero =>
    simp only [behind, reduceCtorEq, false_iff]
    omega
  | succ i ih =>
    cases hc : p.get? i with
    | none =>
      have hi := Program.get?_eq_none_iff.mp hc
      simp only [behind, hc, reduceCtorEq, false_iff]
      omega
    | some c =>
      have hi := Program.lt_size_of_get? hc
      have hh := height_succ hc
      have hw := backward_depthAfter hd c
      cases hd' : Direction.backward.depthAfter d c with
      | zero =>
        rw [hd'] at hw
        simp only [behind, hc, hd', Option.some.injEq]
        constructor
        · rintro rfl
          exact ⟨hi, by omega, by omega, by omega⟩
        · intro h
          obtain ⟨_, hji, _, hk⟩ := h
          by_contra hne
          have := hk i (by omega) (by omega)
          omega
      | succ e =>
        rw [hd'] at hw
        simp only [behind, hc, hd']
        rw [ih (Nat.succ_pos e)]
        constructor
        · intro h
          obtain ⟨hip, hji, he, hk⟩ := h
          refine ⟨hi, by omega, by omega, ?_⟩
          intro k hjk hki
          by_cases hkj : k = i
          · subst hkj
            omega
          · have := hk k hjk (by omega)
            omega
        · intro h
          obtain ⟨_, hji, he, hk⟩ := h
          have hne : i ≠ j := by
            rintro rfl
            omega
          refine ⟨hi.le, by omega, by omega, ?_⟩
          intro k hjk hki
          have := hk k hjk (by omega)
          omega

end ByteTape.Bracket
