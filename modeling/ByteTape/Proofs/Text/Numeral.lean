import ByteTape.Text.Numeral

/-! What a numeral stands for. Reading succeeds exactly on numerals below the bound; of any other
text it says why, and looks no further than needed. -/
namespace ByteTape.Text.Numeral

/-- The text is a numeral for `n`: one plus sign at most, and then digits, with a value below the
bound. -/
def Denotes (text : List Char) (n : Nat) : Prop :=
  ∃ ds, (text = ds ∨ text = '+' :: ds) ∧ ds ≠ [] ∧ (∀ c ∈ ds, c.isDigit = true) ∧
    Nat.ofDigitChars 10 ds 0 = n ∧ n < bound

private theorem le_ofDigitChars (ds : List Char) (m : Nat) : m ≤ Nat.ofDigitChars 10 ds m := by
  induction ds generalizing m with
  | nil => exact Nat.le_refl m
  | cons c ds ih =>
    rw [Nat.ofDigitChars_cons]
    exact Nat.le_trans (by omega) (ih _)

private theorem digits_eq_ok_iff {ds : List Char} {m n : Nat} (hm : m < bound) :
    digits m ds = .ok n ↔
    (∀ c ∈ ds, c.isDigit = true) ∧ Nat.ofDigitChars 10 ds m = n ∧ n < bound := by
  induction ds generalizing m with
  | nil =>
    constructor
    · intro h
      obtain rfl := Except.ok.inj h
      exact ⟨by simp, rfl, hm⟩
    · intro ⟨_, h, _⟩
      exact congrArg _ h
  | cons c ds ih =>
    rw [Nat.ofDigitChars_cons, Nat.mul_comm 10 m]
    by_cases hc : c.isDigit = true
    · have hd : digit? c = some (c.toNat - '0'.toNat) := if_pos hc
      by_cases hlt : m * 10 + (c.toNat - '0'.toNat) < bound
      · simp only [digits, hd, if_pos hlt, ih hlt, List.forall_mem_cons, hc, true_and]
      · simp only [digits, hd, if_neg hlt, reduceCtorEq, false_iff]
        intro ⟨_, hn, hb⟩
        have := le_ofDigitChars ds (m * 10 + (c.toNat - '0'.toNat))
        omega
    · have hd : digit? c = none := if_neg hc
      simp [digits, hd, hc]

theorem read_eq_ok_iff {text : List Char} {n : Nat} : read text = .ok n ↔ Denotes text n := by
  have hbound : 0 < bound := Nat.pow_pos (by decide)
  unfold read Denotes
  split
  · simp
  · simp only [reduceCtorEq, false_iff, not_exists, not_and]
    rintro ds (rfl | h) hne hdigit
    · exact absurd (hdigit '+' (by simp)) (by decide)
    · exact absurd (List.cons.inj h).2.symm hne
  · rename_i rest hrest
    rw [digits_eq_ok_iff hbound]
    constructor
    · intro h
      exact ⟨rest, .inr rfl, fun hnil => hrest (by rw [hnil]), h⟩
    · rintro ⟨ds, rfl | h, _, hdigit, hn⟩
      · exact absurd (hdigit '+' (by simp)) (by decide)
      · obtain rfl := (List.cons.inj h).2
        exact ⟨hdigit, hn⟩
  · rename_i hnil _ hplus
    rw [digits_eq_ok_iff hbound]
    constructor
    · intro h
      exact ⟨text, .inl rfl, hnil, h⟩
    · rintro ⟨ds, rfl | rfl, _, hdigit, hn⟩
      · exact ⟨hdigit, hn⟩
      · exact absurd rfl (hplus ds)

def unsigned : List Char → List Char
  | '+' :: rest => rest
  | text => text

/-- What the digits before the first character that is none stand for. -/
def leading (text : List Char) : Nat :=
  Nat.ofDigitChars 10 ((unsigned text).takeWhile Char.isDigit) 0

def fault (text : List Char) : NumeralError :=
  if text = [] then .empty else if bound ≤ leading text then .tooLarge else .invalidDigit

/-- A number that reaches the bound is reported before a later character is looked at. -/
private theorem error_of_digits {ds : List Char} {m : Nat} {e : NumeralError} (hm : m < bound)
    (h : digits m ds = .error e) :
    e = if bound ≤ Nat.ofDigitChars 10 (ds.takeWhile Char.isDigit) m then .tooLarge
      else .invalidDigit := by
  induction ds generalizing m with
  | nil => cases h
  | cons c ds ih =>
    by_cases hc : c.isDigit = true
    · have hd : digit? c = some (c.toNat - '0'.toNat) := if_pos hc
      rw [List.takeWhile_cons_of_pos hc, Nat.ofDigitChars_cons, Nat.mul_comm 10 m]
      by_cases hlt : m * 10 + (c.toNat - '0'.toNat) < bound
      · simp only [digits, hd, if_pos hlt] at h
        exact ih hlt h
      · simp only [digits, hd, if_neg hlt] at h
        rw [if_pos (Nat.le_trans (Nat.not_lt.mp hlt) (le_ofDigitChars _ _))]
        exact (Except.error.inj h).symm
    · have hd : digit? c = none := if_neg hc
      simp only [digits, hd] at h
      rw [List.takeWhile_cons_of_neg hc, Nat.ofDigitChars_nil, if_neg (Nat.not_le.mpr hm)]
      exact (Except.error.inj h).symm

private theorem error_of_read {text : List Char} {e : NumeralError} (h : read text = .error e) :
    e = fault text := by
  have hbound : 0 < bound := Nat.pow_pos (by decide)
  unfold read at h
  split at h
  · exact (Except.error.inj h).symm
  · have hplus : ¬ bound ≤ leading ['+'] := Nat.not_le.mpr hbound
    rw [fault, if_neg (List.cons_ne_nil _ _), if_neg hplus]
    exact (Except.error.inj h).symm
  · rw [fault, if_neg (List.cons_ne_nil _ _)]
    exact error_of_digits hbound h
  · rename_i hnil _ hplus
    have hunsigned : unsigned text = text := by
      unfold unsigned
      split
      · exact absurd rfl (hplus _)
      · rfl
    rw [fault, if_neg hnil, leading, hunsigned]
    exact error_of_digits hbound h

theorem read_eq_error_iff {text : List Char} {e : NumeralError} :
    read text = .error e ↔ (∀ n, ¬ Denotes text n) ∧ e = fault text := by
  constructor
  · intro h
    refine ⟨fun n hn => ?_, error_of_read h⟩
    rw [read_eq_ok_iff.mpr hn] at h
    cases h
  · intro ⟨hnone, he⟩
    cases hread : read text with
    | ok n => exact absurd (read_eq_ok_iff.mp hread) (hnone n)
    | error e' => rw [he, error_of_read hread]

/-- A number in decimal is read back. -/
theorem denotes_toDigits {n : Nat} (hn : n < bound) : Denotes (Nat.toDigits 10 n) n :=
  ⟨_, .inl rfl, Nat.toDigits_ne_nil, fun _ => Nat.isDigit_of_mem_toDigits (by decide) (Nat.le_refl 10),
    Nat.ofDigitChars_ten_toDigits, hn⟩

end ByteTape.Text.Numeral
