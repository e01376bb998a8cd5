import ByteTape.Proofs.Bracket.Pairing

/-! The text between two paired brackets is balanced, and the scans from both ends of
a pair are inverse to each other and to the stack pass. -/
namespace ByteTape.Bracket

/-- Texts whose brackets close each other completely. -/
inductive Balanced : List Char → Prop where
  | nil : Balanced []
  | comment {c : Char} {w : List Char} (ho : c ≠ '[') (hc : c ≠ ']') :
      Balanced w → Balanced (c :: w)
  | loop {u v : List Char} : Balanced u → Balanced v → Balanced ('[' :: (u ++ ']' :: v))

def segment (p : Program) (i j : Nat) : List Char := (p.toList.take j).drop i

private theorem segment_self (p : Program) (i : Nat) : segment p i i = [] := by
  simp [segment]

private theorem segment_cons {p : Program} {i j : Nat} {c : Char} (hij : i < j)
    (h : p.get? i = some c) : segment p i j = c :: segment p (i + 1) j := by
  rw [Program.get?_eq_getElem?] at h
  rw [segment, List.drop_eq_getElem?_toList_append, List.getElem?_take_of_lt hij, h]
  rfl

theorem segment_append {p : Program} {i k j : Nat} (hik : i ≤ k) (hkj : k ≤ j) :
    segment p i k ++ segment p k j = segment p i j := by
  have hk : p.toList.take k = (p.toList.take j).take k := by
    rw [List.take_take, Nat.min_eq_left hkj]
  have hd : (p.toList.take j).drop k = ((p.toList.take j).drop i).drop (k - i) := by
    rw [List.drop_drop, Nat.add_sub_of_le hik]
  rw [segment, segment, hk, List.drop_take, hd, List.take_append_drop, segment]

/-- An opening bracket is matched before the height comes down to its level again. -/
theorem exists_matched {p : Program} {i j : Nat} (hi : p.get? i = some '[') (hij : i < j)
    (hj : j ≤ p.size) (hl : height p j ≤ height p i) : ∃ k < j, Matched p i k := by
  by_contra hn
  simp only [not_exists, not_and] at hn
  have hw := (mem_pass_waiting_iff hj).mpr ⟨hij, hi, hn⟩
  have := ((stacked_pass hj).above hw).2.2 j hij le_rfl
  omega

/-- A stretch of text that ends on the level where it began and never goes below it
is balanced. -/
theorem balanced_segment {p : Program} {i j : Nat} (hij : i ≤ j) (hj : j ≤ p.size)
    (hl : height p j = height p i) (ha : ∀ m, i ≤ m → m ≤ j → height p i ≤ height p m) :
    Balanced (segment p i j) := by
  induction hn : j - i using Nat.strong_induction_on generalizing i j with
  | _ n ih =>
    rcases Nat.eq_or_lt_of_le hij with rfl | hlt
    · rw [segment_self]
      exact .nil
    · obtain ⟨c, hc⟩ := Program.exists_get? (p := p) (i := i) (by omega)
      have hs := height_succ hc
      have hnext := ha (i + 1) (by omega) (by omega)
      have hcl : c ≠ ']' := by
        rintro rfl
        have hw : weight ']' = -1 := rfl
        omega
      by_cases ho : c = '['
      · subst ho
        have hw : weight '[' = 1 := rfl
        obtain ⟨k, hkj, hm⟩ := exists_matched hc hlt hj (by omega)
        have hik := hm.lt
        have hlevel := hm.level
        have hend := hm.height_closing
        have hbody : Balanced (segment p (i + 1) k) := by
          apply ih _ (by omega) (by omega) (by omega) (by omega) _ rfl
          intro m him hmk
          have := hm.above m (by omega) hmk
          omega
        have hrest : Balanced (segment p (k + 1) j) := by
          apply ih _ (by omega) (by omega) hj (by omega) _ rfl
          intro m hkm hmj
          have := ha m (by omega) hmj
          omega
        rw [segment_cons hlt hc, ← segment_append (i := i + 1) (k := k) (by omega) (by omega),
          segment_cons hkj hm.closing]
        exact .loop hbody hrest
      · have hw := weight_eq_zero ho hcl
        rw [segment_cons hlt hc]
        apply Balanced.comment ho hcl
        apply ih _ (by omega) (by omega) hj (by omega) _ rfl
        intro m him hmj
        have := ha m (by omega) hmj
        omega

private theorem Matched.balanced {p : Program} {i j : Nat} (h : Matched p i j) :
    Balanced (segment p (i + 1) j) := by
  have hs : height p (i + 1) = height p i + 1 := height_succ h.opening
  have hend := h.height_closing
  apply balanced_segment (i := i + 1) h.lt (Program.lt_size_of_get? h.closing).le (by omega)
  intro m him hmj
  have := h.above m him hmj
  omega

/-- The scans from the two ends of a pair lead to each other, and the pairs are those
of the stack pass. What lies between the ends is balanced, two pairs are nested or
disjoint, and a scan fails exactly at a bracket that the pass leaves over. -/
theorem scan_iff_mem_pairs (p : Program) :
    (∀ i j, (p.get? i = some '[' ∧ scan p i .forward = .ok j ↔ (i, j) ∈ pairs p) ∧
      (p.get? j = some ']' ∧ scan p j .backward = .ok i ↔ (i, j) ∈ pairs p)) ∧
    (∀ i j, (i, j) ∈ pairs p → i < j ∧ Balanced (segment p (i + 1) j)) ∧
    (∀ i j i' j', (i, j) ∈ pairs p → (i', j') ∈ pairs p →
      ((i = i' ∧ j = j') ∨ (i < i' ∧ j' < j) ∨ (i' < i ∧ j < j') ∨ j < i' ∨ j' < i) ∧
      (i = i' ∨ j = j' ∨ i = j' ∨ j = i' → i = i' ∧ j = j')) ∧
    (∀ i e, p.get? i = some '[' ∧ scan p i .forward = .error e ↔
      i ∈ unpaired p .opening ∧ e = .unmatchedBracket i .opening) ∧
    (∀ j e, p.get? j = some ']' ∧ scan p j .backward = .error e ↔
      j ∈ unpaired p .closing ∧ e = .unmatchedBracket j .closing) := by
  simp only [mem_pairs_iff]
  refine ⟨fun i j => ⟨scan_forward_iff, scan_backward_iff⟩, fun i j h => ⟨h.lt, h.balanced⟩,
    ?_, ?_, ?_⟩
  · intro i j i' j' h h'
    have hd := h.nested_or_disjoint h'
    have := h.lt
    have := h'.lt
    exact ⟨hd, by omega⟩
  · intro i e
    rw [mem_unpaired_opening_iff, scan_eq_error_iff, ← and_assoc]
    apply and_congr_left'
    apply and_congr_right
    intro hi
    exact forall_congr' fun j => not_congr (by rw [← scan_forward_iff, and_iff_right hi])
  · intro j e
    rw [mem_unpaired_closing_iff, scan_eq_error_iff, ← and_assoc]
    apply and_congr_left'
    apply and_congr_right
    intro hj
    exact forall_congr' fun i => not_congr (by rw [← scan_backward_iff, and_iff_right hj])

end ByteTape.Bracket
