import ByteTape.Proofs.Bracket.Matching

/-! Loop pairs as one reading of the text with a stack finds them. The scans from
both ends agree with this pass, and they fail exactly at the brackets that it
leaves over. -/
namespace ByteTape.Bracket

/-- What the pass knows: the open loops, innermost first, the pairs closed so far,
and the closing brackets that came when nothing was open. -/
structure Pass where
  waiting : List Nat
  pairs : List (Nat × Nat)
  strays : List Nat

def Pass.step (s : Pass) (i : Nat) : Char → Pass
  | '[' => { s with waiting := i :: s.waiting }
  | ']' =>
    match s.waiting with
    | [] => { s with strays := i :: s.strays }
    | o :: rest => { s with waiting := rest, pairs := (o, i) :: s.pairs }
  | _ => s

/-- The four things that a step can do. -/
theorem Pass.step_cases (s : Pass) (i : Nat) (c : Char) :
    (c = '[' ∧ s.step i c = { s with waiting := i :: s.waiting }) ∨
    (c = ']' ∧ s.waiting = [] ∧ s.step i c = { s with strays := i :: s.strays }) ∨
    (∃ o rest, c = ']' ∧ s.waiting = o :: rest ∧
      s.step i c = { s with waiting := rest, pairs := (o, i) :: s.pairs }) ∨
    (c ≠ '[' ∧ c ≠ ']' ∧ s.step i c = s) := by
  by_cases ho : c = '['
  · subst ho
    exact .inl ⟨rfl, rfl⟩
  · by_cases hc : c = ']'
    · subst hc
      cases hw : s.waiting with
      | nil => exact .inr (.inl ⟨rfl, rfl, by simp [step, hw]⟩)
      | cons o rest => exact .inr (.inr (.inl ⟨o, rest, rfl, rfl, by simp [step, hw]⟩))
    · exact .inr (.inr (.inr ⟨ho, hc, by simp [step]⟩))

namespace Pass
variable {s : Pass} {i j k : Nat} {c : Char}

private theorem mem_pairs_step : (i, j) ∈ (s.step k c).pairs ↔
    (i, j) ∈ s.pairs ∨ (j = k ∧ c = ']' ∧ ∃ rest, s.waiting = i :: rest) := by
  rcases s.step_cases k c with ⟨rfl, he⟩ | ⟨rfl, hw, he⟩ | ⟨o, rest, rfl, hw, he⟩ | ⟨ho, hcl, he⟩
  · simp [he]
  · simp [he, hw]
  · rw [he, hw, List.mem_cons, Prod.mk.injEq, or_comm]
    apply or_congr_right
    constructor
    · intro h
      obtain ⟨rfl, rfl⟩ := h
      exact ⟨rfl, rfl, rest, rfl⟩
    · intro h
      obtain ⟨rfl, _, rest', h⟩ := h
      exact ⟨(List.cons.inj h).1.symm, rfl⟩
  · simp [he, hcl]

private theorem mem_strays_step : j ∈ (s.step k c).strays ↔
    j ∈ s.strays ∨ (j = k ∧ c = ']' ∧ s.waiting = []) := by
  rcases s.step_cases k c with ⟨rfl, he⟩ | ⟨rfl, hw, he⟩ | ⟨o, rest, rfl, hw, he⟩ | ⟨ho, hcl, he⟩
  · simp [he]
  · simp [he, hw, or_comm]
  · simp [he, hw]
  · simp [he, hcl]

private theorem mem_waiting_step (h : i ∈ s.waiting) :
    i ∈ (s.step k c).waiting ∨ (c = ']' ∧ ∃ rest, s.waiting = i :: rest) := by
  rcases s.step_cases k c with ⟨rfl, he⟩ | ⟨rfl, hw, he⟩ | ⟨o, rest, rfl, hw, he⟩ | ⟨ho, hcl, he⟩
  · exact .inl (by simp [he, h])
  · rw [hw] at h
    cases h
  · rw [hw] at h
    rcases List.mem_cons.mp h with rfl | h
    · exact .inr ⟨rfl, rest, hw⟩
    · exact .inl (by rw [he]; exact h)
  · exact .inl (by rw [he]; exact h)

end Pass

def pass (p : Program) : Nat → Pass
  | 0 => ⟨[], [], []⟩
  | k + 1 =>
    match p.get? k with
    | none => pass p k
    | some c => (pass p k).step k c

def pairs (p : Program) : List (Nat × Nat) := (pass p p.size).pairs

def unpaired (p : Program) : BracketSide → List Nat
  | .opening => (pass p p.size).waiting
  | .closing => (pass p p.size).strays

/-- The shape of the stack after `k` characters: each open loop stands one level
above the next outer one and has not been left since it was opened. With no loop
open the height is at its lowest so far. -/
def Stacked (p : Program) : List Nat → Nat → Prop
  | [], k => ∀ m ≤ k, height p k ≤ height p m
  | i :: rest, k =>
    i < k ∧ p.get? i = some '[' ∧ height p k = height p i + 1 ∧
      (∀ m, i < m → m ≤ k → height p i < height p m) ∧ Stacked p rest i

/-- A stack fits again wherever the height has come back to without going below. -/
private theorem Stacked.move {p : Program} {stack : List Nat} {i k : Nat} (h : Stacked p stack i)
    (hik : i ≤ k) (hl : height p k = height p i)
    (ha : ∀ m, i ≤ m → m ≤ k → height p i ≤ height p m) : Stacked p stack k := by
  cases stack with
  | nil =>
    intro m hm
    rcases Nat.le_total m i with hmi | hmi
    · have := h m hmi
      omega
    · have := ha m hmi hm
      omega
  | cons o rest =>
    obtain ⟨ho, hopen, hlo, habove, hrest⟩ := h
    refine ⟨by omega, hopen, by omega, ?_, hrest⟩
    intro m hom hmk
    rcases Nat.le_total m i with hmi | hmi
    · exact habove m hom hmi
    · have := ha m hmi hmk
      omega

private theorem Stacked.push {p : Program} {stack : List Nat} {k : Nat} (h : Stacked p stack k)
    (hk : p.get? k = some '[') : Stacked p (k :: stack) (k + 1) := by
  have hs : height p (k + 1) = height p k + 1 := height_succ hk
  refine ⟨by omega, hk, hs, ?_, h⟩
  intro m hkm hmk
  obtain rfl : m = k + 1 := by omega
  omega

private theorem Stacked.pass_comment {p : Program} {stack : List Nat} {k : Nat} {c : Char}
    (h : Stacked p stack k) (hk : p.get? k = some c) (ho : c ≠ '[') (hc : c ≠ ']') :
    Stacked p stack (k + 1) := by
  have hs := height_succ hk
  rw [weight_eq_zero ho hc] at hs
  apply h.move (by omega) (by omega)
  intro m hkm hmk
  obtain rfl | rfl : m = k ∨ m = k + 1 := by omega
  · exact le_rfl
  · omega

private theorem Stacked.stray {p : Program} {k : Nat} (h : Stacked p [] k)
    (hk : p.get? k = some ']') : Stacked p [] (k + 1) := by
  have hs : height p (k + 1) = height p k + -1 := height_succ hk
  intro m hm
  rcases Nat.lt_or_ge k m with hkm | hkm
  · obtain rfl : m = k + 1 := by omega
    exact le_rfl
  · have := h m hkm
    omega

/-- The closing bracket that pops a loop is the one that matches it. -/
theorem Stacked.matched {p : Program} {rest : List Nat} {i k : Nat}
    (h : Stacked p (i :: rest) k) (hk : p.get? k = some ']') : Matched p i k := by
  obtain ⟨hik, hopen, hl, habove, _⟩ := h
  have hs : height p (k + 1) = height p k + -1 := height_succ hk
  exact ⟨hopen, hk, hik, by omega, habove⟩

private theorem Stacked.pop {p : Program} {rest : List Nat} {i k : Nat}
    (h : Stacked p (i :: rest) k) (hk : p.get? k = some ']') : Stacked p rest (k + 1) := by
  have hm := h.matched hk
  obtain ⟨hik, _, _, _, hrest⟩ := h
  have hlevel := hm.level
  apply hrest.move (by omega) hlevel
  intro m him hmk
  by_cases hi : m = i
  · rw [hi]
  · by_cases hmj : m = k + 1
    · rw [hmj, hlevel]
    · exact (hm.above m (by omega) (by omega)).le

/-- With no loop open, no bracket further left can match a later one. -/
theorem Stacked.not_matched {p : Program} {i k : Nat} (h : Stacked p [] k) : ¬ Matched p i k := by
  intro hm
  have := h i hm.lt.le
  have := hm.above k hm.lt le_rfl
  omega

/-- An open loop has not been left since it was opened. -/
theorem Stacked.above {p : Program} {stack : List Nat} {i k : Nat} (h : Stacked p stack k)
    (hi : i ∈ stack) :
    i < k ∧ p.get? i = some '[' ∧ ∀ m, i < m → m ≤ k → height p i < height p m := by
  induction stack generalizing k with
  | nil => cases hi
  | cons o rest ih =>
    obtain ⟨hok, hopen, hl, habove, hrest⟩ := h
    rcases List.mem_cons.mp hi with rfl | hi
    · exact ⟨hok, hopen, habove⟩
    · obtain ⟨hio, hopen, hlow⟩ := ih hrest hi
      refine ⟨by omega, hopen, ?_⟩
      intro m him hmk
      rcases Nat.le_total m o with hmo | hmo
      · exact hlow m him hmo
      · have := hlow o hio le_rfl
        by_cases hm : m = o
        · rw [hm]
          omega
        · have := habove m (by omega) hmk
          omega

theorem pass_succ {p : Program} {k : Nat} {c : Char} (h : p.get? k = some c) :
    pass p (k + 1) = (pass p k).step k c := by
  simp [pass, h]

theorem stacked_pass {p : Program} {k : Nat} (hk : k ≤ p.size) :
    Stacked p (pass p k).waiting k := by
  induction k with
  | zero =>
    intro m hm
    rw [Nat.le_zero.mp hm]
  | succ k ih =>
    have hs := ih (by omega)
    obtain ⟨c, hc⟩ := Program.exists_get? hk
    rw [pass_succ hc]
    rcases (pass p k).step_cases k c with ⟨rfl, he⟩ | ⟨rfl, hw, he⟩ | ⟨o, rest, rfl, hw, he⟩ |
      ⟨ho, hcl, he⟩
    · rw [he]
      exact hs.push hc
    · rw [hw] at hs
      simpa only [he, hw] using hs.stray hc
    · rw [hw] at hs
      rw [he]
      exact hs.pop hc
    · rw [he]
      exact hs.pass_comment hc ho hcl

/-- A closing bracket matches the innermost loop open before it. -/
theorem matched_iff_waiting {p : Program} {i k : Nat} :
    Matched p i k ↔ p.get? k = some ']' ∧ ∃ rest, (pass p k).waiting = i :: rest := by
  constructor
  · intro hm
    have hs := stacked_pass (Program.lt_size_of_get? hm.closing).le
    refine ⟨hm.closing, ?_⟩
    cases hw : (pass p k).waiting with
    | nil =>
      rw [hw] at hs
      exact absurd hm hs.not_matched
    | cons o rest =>
      rw [hw] at hs
      exact ⟨rest, by rw [(hs.matched hm.closing).left_unique hm]⟩
  · intro h
    obtain ⟨hc, rest, hw⟩ := h
    have hs := stacked_pass (Program.lt_size_of_get? hc).le
    rw [hw] at hs
    exact hs.matched hc

/-- The pairs found among the first `k` characters are the matches that end there. -/
theorem mem_pass_pairs_iff {p : Program} {i j k : Nat} (hk : k ≤ p.size) :
    (i, j) ∈ (pass p k).pairs ↔ j < k ∧ Matched p i j := by
  induction k with
  | zero => simp [pass]
  | succ k ih =>
    obtain ⟨c, hc⟩ := Program.exists_get? hk
    rw [pass_succ hc, Pass.mem_pairs_step, ih (by omega)]
    constructor
    · intro h
      rcases h with ⟨hj, hm⟩ | ⟨rfl, rfl, hw⟩
      · exact ⟨by omega, hm⟩
      · exact ⟨by omega, matched_iff_waiting.mpr ⟨hc, hw⟩⟩
    · intro h
      obtain ⟨hj, hm⟩ := h
      rcases Nat.lt_succ_iff_lt_or_eq.mp hj with hj | rfl
      · exact .inl ⟨hj, hm⟩
      · obtain ⟨hcl, hw⟩ := matched_iff_waiting.mp hm
        exact .inr ⟨rfl, Option.some.inj (hc.symm.trans hcl), hw⟩

theorem mem_pairs_iff {p : Program} {i j : Nat} : (i, j) ∈ pairs p ↔ Matched p i j := by
  rw [pairs, mem_pass_pairs_iff le_rfl]
  constructor
  · exact And.right
  · intro h
    exact ⟨Program.lt_size_of_get? h.closing, h⟩

theorem count_take_succ {p : Program} {k : Nat} {c : Char} (h : p.get? k = some c)
    (b : Char) :
    (p.toList.take (k + 1)).count b = (p.toList.take k).count b + if c = b then 1 else 0 := by
  rw [Program.get?_eq_getElem?] at h
  rw [List.take_add_one, List.count_append, h]
  by_cases hb : c = b <;> simp [hb]

/-- Each opening bracket waits or is in one pair, each closing one is stray or in one. -/
private theorem length_pass_pairs {p : Program} {k : Nat} (hk : k ≤ p.size) :
    (pass p k).pairs.length + (pass p k).waiting.length = (p.toList.take k).count '[' ∧
    (pass p k).pairs.length + (pass p k).strays.length = (p.toList.take k).count ']' := by
  induction k with
  | zero => simp [pass]
  | succ k ih =>
    obtain ⟨ho, hcl⟩ := ih (by omega)
    obtain ⟨c, hc⟩ := Program.exists_get? hk
    rw [pass_succ hc, count_take_succ hc, count_take_succ hc]
    rcases (pass p k).step_cases k c with ⟨rfl, he⟩ | ⟨rfl, hw, he⟩ | ⟨o, rest, rfl, hw, he⟩ |
      ⟨hno, hncl, he⟩
    · simp [he]
      omega
    · simp [he]
      omega
    · simp only [hw, List.length_cons] at ho
      simp [he]
      omega
    · simpa [he, hno, hncl] using ⟨ho, hcl⟩

theorem length_pairs_le (p : Program) :
    (pairs p).length ≤ min (p.toList.count '[') (p.toList.count ']') := by
  have h := length_pass_pairs (p := p) le_rfl
  rw [Program.size_eq_length, List.take_length, ← Program.size_eq_length] at h
  rw [pairs]
  omega

/-- The loops that wait after `k` characters are those not matched among them. -/
theorem mem_pass_waiting_iff {p : Program} {i k : Nat} (hk : k ≤ p.size) :
    i ∈ (pass p k).waiting ↔ i < k ∧ p.get? i = some '[' ∧ ∀ j < k, ¬ Matched p i j := by
  constructor
  · intro hi
    obtain ⟨hik, ho, habove⟩ := (stacked_pass hk).above hi
    refine ⟨hik, ho, ?_⟩
    intro j hj hm
    have := hm.level
    have := hm.lt
    have := habove (j + 1) (by omega) hj
    omega
  · intro h
    obtain ⟨hik, ho, hn⟩ := h
    induction k with
    | zero => omega
    | succ k ih =>
      obtain ⟨c, hc⟩ := Program.exists_get? hk
      rw [pass_succ hc]
      rcases Nat.lt_succ_iff_lt_or_eq.mp hik with hik | rfl
      · have hi := ih (by omega) hik fun j hj => hn j (by omega)
        rcases Pass.mem_waiting_step (k := k) (c := c) hi with h | ⟨rfl, hw⟩
        · exact h
        · exact absurd (matched_iff_waiting.mpr ⟨hc, hw⟩) (hn k (by omega))
      · obtain rfl := Option.some.inj (hc.symm.trans ho)
        exact List.mem_cons_self

private theorem mem_pass_strays_iff {p : Program} {j k : Nat} (hk : k ≤ p.size) :
    j ∈ (pass p k).strays ↔ j < k ∧ p.get? j = some ']' ∧ ∀ i, ¬ Matched p i j := by
  induction k with
  | zero => simp [pass]
  | succ k ih =>
    obtain ⟨c, hc⟩ := Program.exists_get? hk
    rw [pass_succ hc, Pass.mem_strays_step, ih (by omega)]
    constructor
    · intro h
      rcases h with ⟨hj, h⟩ | ⟨rfl, rfl, hw⟩
      · exact ⟨by omega, h⟩
      · refine ⟨by omega, hc, ?_⟩
        intro i hm
        obtain ⟨_, rest, hw'⟩ := matched_iff_waiting.mp hm
        rw [hw] at hw'
        cases hw'
    · intro h
      obtain ⟨hj, hcl, hn⟩ := h
      rcases Nat.lt_succ_iff_lt_or_eq.mp hj with hj | rfl
      · exact .inl ⟨hj, hcl, hn⟩
      · refine .inr ⟨rfl, Option.some.inj (hc.symm.trans hcl), ?_⟩
        cases hw : (pass p j).waiting with
        | nil => rfl
        | cons o rest => exact absurd (matched_iff_waiting.mpr ⟨hcl, rest, hw⟩) (hn o)

theorem mem_unpaired_opening_iff {p : Program} {i : Nat} :
    i ∈ unpaired p .opening ↔ p.get? i = some '[' ∧ ∀ j, ¬ Matched p i j := by
  rw [unpaired, mem_pass_waiting_iff le_rfl]
  constructor
  · intro h
    obtain ⟨_, hi, hn⟩ := h
    exact ⟨hi, fun j hm => hn j (Program.lt_size_of_get? hm.closing) hm⟩
  · intro h
    obtain ⟨hi, hn⟩ := h
    exact ⟨Program.lt_size_of_get? hi, hi, fun j _ => hn j⟩

theorem mem_unpaired_closing_iff {p : Program} {j : Nat} :
    j ∈ unpaired p .closing ↔ p.get? j = some ']' ∧ ∀ i, ¬ Matched p i j := by
  rw [unpaired, mem_pass_strays_iff le_rfl]
  constructor
  · exact And.right
  · intro h
    obtain ⟨hj, hn⟩ := h
    exact ⟨Program.lt_size_of_get? hj, hj, hn⟩

end ByteTape.Bracket
