import ByteTape.Text.Blank
import Mathlib.Data.List.Basic
import Mathlib.Data.List.TakeWhile

/-! What is left of a text without the blanks at its ends. Further blanks there make no difference,
and characters that are no blanks keep what stands between them. -/
namespace ByteTape.Text

def Blank (cs : List Char) : Prop := ∀ c ∈ cs, isBlank c = true

instance (cs : List Char) : Decidable (Blank cs) :=
  decidable_of_iff (cs.all isBlank = true) List.all_eq_true

variable {cs l r : List Char} {a b c : Char}

theorem blank_nil : Blank [] := fun _ h => absurd h List.not_mem_nil

private theorem Blank.reverse (h : Blank cs) : Blank cs.reverse :=
  fun c hc => h c (List.mem_reverse.mp hc)

private theorem trimStart_append (h : Blank l) (cs : List Char) :
    trimStart (l ++ cs) = trimStart cs :=
  List.dropWhile_append_of_pos h

private theorem trimEnd_append (h : Blank r) (cs : List Char) : trimEnd (cs ++ r) = trimEnd cs := by
  rw [trimEnd, List.reverse_append, List.dropWhile_append_of_pos h.reverse, trimEnd]

private theorem trimStart_of_blank (h : Blank cs) : trimStart cs = [] :=
  List.dropWhile_eq_nil_iff.mpr h

private theorem trimEnd_of_blank (h : Blank cs) : trimEnd cs = [] := trimEnd_append h []

private theorem trimStart_append_cons (hc : isBlank c = false) (before after : List Char) :
    trimStart (before ++ c :: after) = trimStart before ++ c :: after := by
  have hstop : (c :: after).dropWhile isBlank = c :: after :=
    List.dropWhile_cons_of_neg (by simp [hc])
  rw [trimStart, List.dropWhile_append, hstop]
  split
  · rename_i hnil
    rw [trimStart, List.isEmpty_iff.mp hnil, List.nil_append]
  · rfl

private theorem trimEnd_append_cons (hc : isBlank c = false) (before after : List Char) :
    trimEnd (before ++ c :: after) = before ++ c :: trimEnd after := by
  have hreverse : (before ++ c :: after).reverse = after.reverse ++ c :: before.reverse := by simp
  rw [trimEnd, hreverse, ← trimStart, trimStart_append_cons hc, trimEnd, trimStart]
  simp

theorem trim_append_cons (hc : isBlank c = false) (before after : List Char) :
    trim (before ++ c :: after) = trimStart before ++ c :: trimEnd after := by
  rw [trim, trimStart_append_cons hc, trimEnd_append_cons hc]

theorem mem_trim (hc : isBlank c = false) (h : c ∈ cs) : c ∈ trim cs := by
  obtain ⟨before, after, rfl⟩ := List.append_of_mem h
  rw [trim_append_cons hc]
  exact List.mem_append_right _ List.mem_cons_self

/-- A text between two characters that are no blanks is not touched. -/
theorem trim_between (ha : isBlank a = false) (hb : isBlank b = false) (inner : List Char) :
    trim (a :: (inner ++ [b])) = a :: (inner ++ [b]) := by
  have hstart : trimStart (a :: inner) = a :: inner := trimStart_append_cons ha [] inner
  have h := trim_append_cons hb (a :: inner) []
  rwa [hstart, trimEnd_of_blank blank_nil] at h

/-- A text is blank, or it has a first character that is no blank. -/
private theorem blank_or_first (cs : List Char) :
    Blank cs ∨ ∃ l c rest, Blank l ∧ isBlank c = false ∧ cs = l ++ c :: rest := by
  induction cs with
  | nil => exact .inl blank_nil
  | cons d cs ih =>
    cases hd : isBlank d with
    | false => exact .inr ⟨[], d, cs, blank_nil, hd, rfl⟩
    | true =>
      rcases ih with hblank | ⟨l, c, rest, hl, hc, rfl⟩
      · exact .inl (List.forall_mem_cons.mpr ⟨hd, hblank⟩)
      · exact .inr ⟨d :: l, c, rest, List.forall_mem_cons.mpr ⟨hd, hl⟩, hc, rfl⟩

private theorem trim_eq_trimStart_trimEnd (cs : List Char) : trim cs = trimStart (trimEnd cs) := by
  rcases blank_or_first cs with h | ⟨l, c, rest, hl, hc, rfl⟩
  · rw [trim, trimStart_of_blank h, trimEnd_of_blank h]
    rfl
  · rw [trim_append_cons hc, trimEnd_append_cons hc, trimStart_append_cons hc]

theorem trim_append_left (h : Blank l) (cs : List Char) : trim (l ++ cs) = trim cs := by
  rw [trim, trimStart_append h, trim]

theorem trim_append_right (h : Blank r) (cs : List Char) : trim (cs ++ r) = trim cs := by
  rw [trim_eq_trimStart_trimEnd, trimEnd_append h, trim_eq_trimStart_trimEnd]

private theorem trim_of_blank (h : Blank cs) : trim cs = [] := by
  rw [trim, trimStart_of_blank h]
  rfl

private theorem exists_eq_append_trimStart (cs : List Char) :
    ∃ l, Blank l ∧ cs = l ++ trimStart cs :=
  ⟨cs.takeWhile isBlank, fun _ => List.mem_takeWhile_imp, List.takeWhile_append_dropWhile.symm⟩

private theorem exists_eq_trimEnd_append (cs : List Char) :
    ∃ r, Blank r ∧ cs = trimEnd cs ++ r := by
  obtain ⟨l, hl, hcs⟩ := exists_eq_append_trimStart cs.reverse
  refine ⟨l.reverse, hl.reverse, ?_⟩
  have hreverse := congrArg List.reverse hcs
  rwa [List.reverse_reverse, List.reverse_append] at hreverse

theorem trim_trimStart (cs : List Char) : trim (trimStart cs) = trim cs := by
  obtain ⟨l, hl, hcs⟩ := exists_eq_append_trimStart cs
  rw [← trim_append_left hl (trimStart cs), ← hcs]

theorem trim_trimEnd (cs : List Char) : trim (trimEnd cs) = trim cs := by
  obtain ⟨r, hr, hcs⟩ := exists_eq_trimEnd_append cs
  rw [← trim_append_right hr (trimEnd cs), ← hcs]

/-- The first character that is no blank is first after either cut. -/
theorem head?_trim (cs : List Char) : (trim cs).head? = (trimStart cs).head? := by
  rcases blank_or_first cs with h | ⟨l, c, rest, hl, hc, rfl⟩
  · rw [trim_of_blank h, trimStart_of_blank h]
  · rw [trim_append_cons hc, trimStart_append_cons hc, trimStart_of_blank hl]
    rfl

theorem getLast?_trim (cs : List Char) : (trim cs).getLast? = (trimEnd cs).getLast? := by
  rcases blank_or_first cs with h | ⟨l, c, rest, hl, hc, rfl⟩
  · rw [trim_of_blank h, trimEnd_of_blank h]
  · rw [trim_append_cons hc, trimEnd_append_cons hc, List.getLast?_append_cons,
      List.getLast?_append_cons]

end ByteTape.Text
