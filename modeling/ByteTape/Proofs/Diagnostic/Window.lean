import ByteTape.Diagnostic

/-! Where the caret of a diagnostic stands: under the character at the position that is
shown, and just behind the window if the position is the end of the program. -/
namespace ByteTape

namespace Diagnostic

def column (pos : Nat) : Nat := min pos reach

private theorem sub_start (pos : Nat) : pos - (pos - reach) = column pos := by
  unfold column
  omega

theorem caret_eq (pos : Nat) : caret pos = List.replicate (column pos) ' ' ++ ['^'] := by
  rw [caret, sub_start]

theorem window_eq (code : List Char) (pos : Nat) :
    window code pos = ((code.drop (pos - reach)).take (column pos + reach + 1)).map shown := by
  rw [window, sub_start]

/-- The window shows what stands at the position in the column of the caret. -/
theorem getElem?_window_column (code : List Char) (pos : Nat) :
    (window code pos)[column pos]? = code[pos]?.map shown := by
  have hpos : pos - reach + column pos = pos := by
    unfold column
    omega
  rw [window_eq, List.getElem?_map, List.getElem?_take_of_lt (by omega), List.getElem?_drop, hpos]

private theorem length_window_size (code : List Char) :
    (window code code.length).length = column code.length := by
  rw [window_eq, List.length_map, List.length_take, List.length_drop]
  unfold column
  omega

theorem isControl_shown (c : Char) : isControl (shown c) = false := by
  unfold shown
  split
  · rfl
  · rename_i hc
    simpa using hc

/-- A window is one line. -/
theorem lineFeed_not_mem_window (code : List Char) (pos : Nat) : '\n' ∉ window code pos := by
  rw [window, List.mem_map, not_exists]
  rintro c ⟨_, hc⟩
  have hshown := isControl_shown c
  rw [hc] at hshown
  cases hshown

private theorem shown_symbol (i : Instruction) : shown i.symbol = i.symbol := by
  cases i <;> rfl

/-- The window stands as it should over the caret, at an instruction and at the end. -/
theorem window_of_place {p : Program} {k : Nat}
    (h : k = p.size ∨ ∃ i : Instruction, p.get? k = some i.symbol) :
    (window p.toList k)[column k]? = p.get? k ∧
      (k = p.size → (window p.toList k).length = column k) := by
  have hcolumn := getElem?_window_column p.toList k
  rw [← Program.get?_eq_getElem?] at hcolumn
  rcases h with rfl | ⟨i, hi⟩
  · have hlength := length_window_size p.toList
    rw [← Program.size_eq_length] at hlength
    rw [Program.get?_eq_none_iff.mpr (Nat.le_refl _)] at hcolumn ⊢
    exact ⟨hcolumn, fun _ => hlength⟩
  · rw [hi, Option.map_some, shown_symbol] at hcolumn
    refine ⟨hcolumn.trans hi.symm, ?_⟩
    rintro rfl
    exact absurd (Program.lt_size_of_get? hi) (Nat.lt_irrefl _)

theorem ofRunError_of_ip {e : RunError} {k : Nat} (h : e.ip? = some k) (terminal : Bool)
    (name : String) (code : List Char) : ofRunError terminal name code e =
      withContext s!"{name}: {paint terminal e.message}" code k := by
  simp [ofRunError, h]

end Diagnostic
end ByteTape
