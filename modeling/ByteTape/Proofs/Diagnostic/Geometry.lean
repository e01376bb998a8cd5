import ByteTape.Proofs.Diagnostic.Window

/-! The shape of a diagnostic at any position, on the program or far behind it: which characters
the window shows, in which column the caret stands, and that each of them takes one line. -/
namespace ByteTape.Diagnostic

private theorem isControl_iff (c : Char) :
    isControl c = true ↔ c.toNat ≤ 0x1F ∨ 0x7F ≤ c.toNat ∧ c.toNat ≤ 0x9F := by
  simp only [isControl, Bool.or_eq_true, Bool.and_eq_true, decide_eq_true_eq]
  omega

/-- The window is a slice of the program. -/
theorem window_eq_extract (code : List Char) (pos : Nat) : window code pos =
    (code.extract (pos - reach) (min code.length (pos + reach + 1))).map shown := by
  have hcount : column pos + reach + 1 = pos + reach + 1 - (pos - reach) := by
    unfold column
    omega
  rw [window_eq, List.extract_eq_take_drop, hcount]
  congr 1
  rw [List.take_eq_take_iff, List.length_drop]
  omega

private theorem length_window (code : List Char) (pos : Nat) :
    (window code pos).length = min code.length (pos + reach + 1) - (pos - reach) := by
  rw [window_eq_extract, List.length_map, List.extract_eq_take_drop, List.length_take,
    List.length_drop]
  omega

/-- Behind the end of the program the window does not come as far as the caret. -/
private theorem length_window_le_column {code : List Char} {pos : Nat} (h : code.length ≤ pos) :
    (window code pos).length ≤ column pos := by
  rw [length_window]
  unfold column
  omega

private theorem length_window_le (code : List Char) (pos : Nat) :
    (window code pos).length ≤ 2 * reach + 1 := by
  rw [length_window]
  omega

private theorem isControl_of_mem_window {code : List Char} {pos : Nat} {c : Char}
    (h : c ∈ window code pos) : isControl c = false := by
  obtain ⟨b, _, rfl⟩ := List.mem_map.mp h
  exact isControl_shown b

private theorem lineFeed_not_mem_caret (pos : Nat) : '\n' ∉ caret pos := by
  simp [caret_eq]

private theorem toList_withContext (headline : String) (code : List Char) (pos : Nat) :
    (withContext headline code pos).toList = headline.toList ++ '\n' ::
      ((' ' :: ' ' :: window code pos) ++ '\n' :: ((' ' :: ' ' :: caret pos) ++ '\n' :: [])) := by
  have hindent : "\n  ".toList = ['\n', ' ', ' '] := rfl
  have hend : "\n".toList = ['\n'] := rfl
  simp only [withContext, toString, String.toList_append, String.toList_ofList, hindent, hend]
  simp

private theorem splitOn_withContext (headline : String) (code : List Char) (pos : Nat) :
    (withContext headline code pos).toList.splitOn '\n' = headline.toList.splitOn '\n' ++
      [' ' :: ' ' :: window code pos, ' ' :: ' ' :: caret pos, []] := by
  have hwindow : '\n' ∉ ' ' :: ' ' :: window code pos := by
    simpa using lineFeed_not_mem_window code pos
  have hcaret : '\n' ∉ ' ' :: ' ' :: caret pos := by
    simpa using lineFeed_not_mem_caret pos
  rw [toList_withContext, List.splitOn_append_cons_self, List.splitOn_append_cons_self,
    List.splitOn_append_cons_self, List.splitOn_eq_singleton hwindow,
    List.splitOn_eq_singleton hcaret]
  rfl

def word? (n : Int) : Option Nat := if 0 ≤ n ∧ n < UInt64.size then some n.toNat else none

private theorem word?_natCast {n : Nat} (h : n < UInt64.size) : word? n = some n := by
  rw [word?, if_pos (by omega), Int.toNat_natCast]

/-- The window and the caret by arithmetic on words. The start of the window stops at zero; no
other result may leave the words. -/
def context? (code : List Char) (pos : Nat) : Option (List Char × List Char) :=
  (word? (pos - (pos - reach : Nat))).bind fun before =>
    (word? (before + reach)).bind fun nearby =>
      (word? (nearby + 1)).map fun count =>
        (((code.drop (pos - reach)).take count).map shown, List.replicate before ' ' ++ ['^'])

/-- No operation on words overflows or underflows. -/
theorem context?_eq (code : List Char) (pos : Nat) :
    context? code pos = some (window code pos, caret pos) := by
  have hcolumn : column pos ≤ reach := Nat.min_le_right _ _
  have hreach : reach = 32 := rfl
  have hwords : UInt64.size = 18446744073709551616 := rfl
  have hbefore : word? ((pos : Int) - (pos - reach : Nat)) = some (column pos) := by
    have hexact : (pos : Int) - (pos - reach : Nat) = column pos := by
      unfold column
      omega
    rw [hexact, word?_natCast (by omega)]
  have hnearby : word? ((column pos : Int) + reach) = some (column pos + reach) := by
    rw [← Int.natCast_add, word?_natCast (by omega)]
  have hcount : word? (((column pos + reach : Nat) : Int) + 1) = some (column pos + reach + 1) := by
    rw [← Int.natCast_succ, word?_natCast (by omega)]
  rw [context?, hbefore, Option.bind_some, hnearby, Option.bind_some, hcount, Option.map_some,
    window_eq, caret_eq]

/-- A diagnostic at any position. The window shows the characters from 32 before the position to 32
behind it, as far as there are any, with each control character as a space. The caret stands below
the character at the position, or behind the window if there is none. Whatever the program is,
window and caret take one line each below the headline, and neither is found by arithmetic that
leaves the words of 64 bits. -/
theorem context_of_position (headline : String) (code : List Char) (pos : Nat) :
    window code pos =
      (code.extract (pos - 32) (min code.length (pos + 33))).map
        (fun c => if isControl c then ' ' else c) ∧
    (∀ c, isControl c = true ↔ c.toNat ≤ 0x1F ∨ 0x7F ≤ c.toNat ∧ c.toNat ≤ 0x9F) ∧
    caret pos = List.replicate (min pos 32) ' ' ++ ['^'] ∧
    (window code pos)[min pos 32]? = code[pos]?.map (fun c => if isControl c then ' ' else c) ∧
    (code.length ≤ pos → (window code pos).length ≤ min pos 32) ∧
    (window code pos).length ≤ 65 ∧
    (∀ c ∈ window code pos, isControl c = false) ∧
    (withContext headline code pos).toList.splitOn '\n' = headline.toList.splitOn '\n' ++
      [' ' :: ' ' :: window code pos, ' ' :: ' ' :: caret pos, []] ∧
    context? code pos = some (window code pos, caret pos) :=
  ⟨window_eq_extract code pos, isControl_iff, caret_eq pos, getElem?_window_column code pos,
    length_window_le_column, length_window_le code pos, fun _ => isControl_of_mem_window,
    splitOn_withContext headline code pos, context?_eq code pos⟩

example : window ['a', '\n', 'b'] 40 = [] ∧ window ['a', '\n', 'b'] 34 = ['b'] := by decide

end ByteTape.Diagnostic
