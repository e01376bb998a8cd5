import Mathlib.Data.List.Basic

/-! Texts cut at byte offsets. A cut is possible between characters only. -/
namespace ByteTape.Text

def byteLength : List Char → Nat
  | [] => 0
  | c :: cs => c.utf8Size + byteLength cs

@[simp] theorem byteLength_nil : byteLength [] = 0 := rfl

@[simp] theorem byteLength_cons (c : Char) (cs : List Char) :
    byteLength (c :: cs) = c.utf8Size + byteLength cs := rfl

@[simp] theorem byteLength_append (as bs : List Char) :
    byteLength (as ++ bs) = byteLength as + byteLength bs := by
  induction as with
  | nil => simp
  | cons c as ih => simp [ih, Nat.add_assoc]

theorem length_le_byteLength (cs : List Char) : cs.length ≤ byteLength cs := by
  induction cs with
  | nil => exact Nat.le_refl 0
  | cons c cs ih =>
    have hc := c.utf8Size_pos
    rw [List.length_cons, byteLength_cons]
    omega

/-- The part of a text from one byte offset to another. There is none if an offset is past the
end or inside a character, or if the first one is behind the second. -/
def IsSlice (cs : List Char) (first last : Nat) (part : List Char) : Prop :=
  ∃ before after, cs = before ++ part ++ after ∧
    byteLength before = first ∧ byteLength (before ++ part) = last

private theorem eq_of_byteLength_eq {as bs as' bs' : List Char} (h : as ++ bs = as' ++ bs')
    (hlength : byteLength as = byteLength as') : as = as' ∧ bs = bs' := by
  induction as generalizing as' with
  | nil =>
    have hnil : as' = [] := by
      have := length_le_byteLength as'
      simp only [byteLength_nil] at hlength
      exact List.eq_nil_of_length_eq_zero (by omega)
    subst hnil
    exact ⟨rfl, h⟩
  | cons a as ih =>
    cases as' with
    | nil =>
      have := a.utf8Size_pos
      simp only [byteLength_cons, byteLength_nil] at hlength
      omega
    | cons a' as' =>
      obtain ⟨rfl, htail⟩ := List.cons.inj h
      rw [byteLength_cons, byteLength_cons] at hlength
      obtain ⟨rfl, hrest⟩ := ih htail (by omega)
      exact ⟨rfl, hrest⟩

private theorem IsSlice.unique {cs part part' : List Char} {first last : Nat}
    (h : IsSlice cs first last part) (h' : IsSlice cs first last part') : part = part' := by
  obtain ⟨before, after, rfl, hfirst, hlast⟩ := h
  obtain ⟨before', after', heq, hfirst', hlast'⟩ := h'
  obtain ⟨hwhole, _⟩ := eq_of_byteLength_eq heq (hlast.trans hlast'.symm)
  exact (eq_of_byteLength_eq hwhole (hfirst.trans hfirst'.symm)).2

/-- Between one-byte characters at its ends a text can be cut, and nothing but the two is lost. -/
theorem isSlice_inner_iff {a b : Char} {inner part : List Char} (ha : a.utf8Size = 1)
    (hb : b.utf8Size = 1) : IsSlice (a :: (inner ++ [b])) 1
      (byteLength (a :: (inner ++ [b])) - 1) part ↔ part = inner := by
  have hinner : IsSlice (a :: (inner ++ [b])) 1 (byteLength (a :: (inner ++ [b])) - 1) inner := by
    refine ⟨[a], [b], rfl, ?_, ?_⟩
    · rw [byteLength_cons, ha, byteLength_nil]
    · simp only [List.singleton_append, byteLength_cons, byteLength_append, byteLength_nil, ha, hb]
      omega
  constructor
  · intro h
    exact h.unique hinner
  · rintro rfl
    exact hinner

@[simp] theorem getLast?_inner (a b : Char) (inner : List Char) :
    (a :: (inner ++ [b])).getLast? = some b :=
  List.getLast?_concat (l := a :: inner)

/-- A text with different first and last characters, or with two at least, has something between. -/
theorem exists_inner {cs : List Char} {a b : Char} (ha : cs.head? = some a)
    (hb : cs.getLast? = some b) (h : a ≠ b ∨ 2 ≤ cs.length) :
    cs = a :: (cs.tail.dropLast ++ [b]) := by
  cases cs with
  | nil => cases ha
  | cons c cs =>
    obtain rfl := Option.some.inj ha
    obtain rfl | ⟨inner, d, rfl⟩ := List.eq_nil_or_concat cs
    · obtain rfl := Option.some.inj hb
      rcases h with h | h
      · exact absurd rfl h
      · exact absurd h (by simp)
    · rw [List.concat_eq_append] at hb ⊢
      rw [getLast?_inner] at hb
      obtain rfl := Option.some.inj hb
      rw [List.tail_cons, List.dropLast_concat]

end ByteTape.Text
