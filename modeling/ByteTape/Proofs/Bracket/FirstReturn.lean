import ByteTape.Proofs.Bracket.Duality
import Mathlib.Order.Bounds.Defs
import Mathlib.Tactic.Ring

/-! A scan as a loop, and what it finds. The loop takes one character at a time and keeps a depth;
it ends at the first position where one bracket of the other side more has been passed than of the
side that it started for, or it runs off the program. Neither number can leave its bounds. -/
namespace ByteTape

def Direction.step : Direction → Int
  | forward => 1
  | backward => -1

namespace Bracket

structure Walk where
  position : Nat
  depth : Int

namespace Walk

/-- The scan one character further. There is nothing further below zero or off the program. An
opening bracket adds the step to the depth and a closing one takes it away. Whatever the width of
a position, one off the program is refused before one that is too wide. -/
def next? (p : Program) (d : Direction) (w : Walk) : Option Walk :=
  (w.position + d.step).toNat?.bind fun i =>
    (p.get? i).map fun c => ⟨i, w.depth + d.step * weight c⟩

/-- `Turns p d n w v` if the loop comes from `w` to `v` in `n` turns. Each begins with a loop open. -/
inductive Turns (p : Program) (d : Direction) : Nat → Walk → Walk → Prop
  | nil (w : Walk) : Turns p d 0 w w
  | cons {n : Nat} {w v u : Walk} (deep : 0 < w.depth) (next : w.next? p d = some v) :
      Turns p d n v u → Turns p d (n + 1) w u

def Halted (p : Program) (d : Direction) (w : Walk) : Prop := w.depth ≤ 0 ∨ w.next? p d = none

variable {p : Program} {d : Direction} {m n : Nat} {w v u : Walk}

private theorem next?_forward (p : Program) (i : Nat) (depth : Int) : next? p .forward ⟨i, depth⟩ =
    (p.get? (i + 1)).map fun c => ⟨i + 1, depth + weight c⟩ := by
  simp only [next?, Direction.step, one_mul]
  rfl

private theorem next?_backward_zero (p : Program) (depth : Int) :
    next? p .backward ⟨0, depth⟩ = none := rfl

private theorem next?_backward_succ (p : Program) (i : Nat) (depth : Int) :
    next? p .backward ⟨i + 1, depth⟩ = (p.get? i).map fun c => ⟨i, depth - weight c⟩ := by
  have hstep : ((i + 1 : Nat) : Int) + -1 = (i : Int) := by omega
  simp only [next?, Direction.step, hstep, neg_one_mul]
  rfl

/-- The loop halts in one state at most. -/
theorem Turns.unique (h : Turns p d m w v) (hv : v.Halted p d) (h' : Turns p d n w u)
    (hu : u.Halted p d) : v = u := by
  induction h generalizing n with
  | nil w =>
    cases h' with
    | nil => rfl
    | cons deep next _ =>
      rcases hv with hv | hv
      · omega
      · rw [hv] at next
        cases next
  | cons deep next _ ih =>
    cases h' with
    | nil =>
      rcases hu with hu | hu
      · omega
      · rw [hu] at next
        cases next
    | cons deep' next' h' =>
      obtain rfl := Option.some.inj (next.symm.trans next')
      exact ih hv h'

private theorem abs_weight_le (c : Char) : -1 ≤ weight c ∧ weight c ≤ 1 := by
  unfold weight
  split <;> omega

private theorem next?_bounds (h : w.next? p d = some v) : (v.position : Int) = w.position + d.step ∧
    v.position < p.size ∧ w.depth - 1 ≤ v.depth ∧ v.depth ≤ w.depth + 1 := by
  obtain ⟨i, hi, hv⟩ := Option.bind_eq_some_iff.mp h
  obtain ⟨c, hc, rfl⟩ := Option.map_eq_some_iff.mp hv
  have hweight := abs_weight_le c
  have hplace : (i : Int) = w.position + d.step := (Int.mem_toNat?.mp hi).symm
  refine ⟨hplace, Program.lt_size_of_get? hc, ?_⟩
  cases d <;> simp only [Direction.step] <;> omega

/-- After `n` turns the position has moved by `n` steps, all on the program, and the depth has not
gone below zero nor grown by more than `n`. -/
private theorem Turns.bounds (h : Turns p d n w v) (hw : 0 ≤ w.depth) :
    (v.position : Int) = w.position + n * d.step ∧ 0 ≤ v.depth ∧ v.depth ≤ w.depth + n ∧
      (0 < n → v.position < p.size ∧ w.position + d.step < p.size) := by
  induction h with
  | nil w => simpa using hw
  | @cons n w v u deep next _ ih =>
    obtain ⟨hplace, hsize, hlow, hhigh⟩ := next?_bounds next
    obtain ⟨hmoved, hnonneg, hdepth, hon⟩ := ih (by omega)
    refine ⟨?_, hnonneg, by push_cast; omega, fun _ => ⟨?_, by omega⟩⟩
    · rw [hmoved, hplace]
      push_cast
      ring
    · rcases Nat.eq_zero_or_pos n with hn | hn
      · rw [hn, Nat.cast_zero, zero_mul, add_zero] at hmoved
        omega
      · exact (hon hn).1

/-- The loop takes no more turns than the program has characters. -/
theorem Turns.le_size (h : Turns p d n w v) (hw : 0 ≤ w.depth) : n ≤ p.size := by
  rcases Nat.eq_zero_or_pos n with rfl | hn
  · exact Nat.zero_le _
  · obtain ⟨hmoved, _, _, hon⟩ := h.bounds hw
    obtain ⟨hlast, hfirst⟩ := hon hn
    cases d with
    | forward =>
      simp only [Direction.step, mul_one] at hmoved
      omega
    | backward =>
      simp only [Direction.step, mul_neg_one] at hmoved hfirst
      omega

/-- How the loop halts: at the position `r` with every loop closed, or with nothing further. -/
def Ends (p : Program) (d : Direction) (w : Walk) (r : Option Nat) : Prop :=
  ∃ n v, Turns p d n w v ∧ v.Halted p d ∧ r.elim (0 < v.depth) (v = ⟨·, 0⟩)

private theorem ends_of_stuck {r : Option Nat} (hw : 0 < w.depth) (hn : w.next? p d = none)
    (hr : r = none) : Ends p d w r := by
  subst hr
  exact ⟨0, w, .nil w, .inr hn, hw⟩

private theorem ends_of_next {r : Option Nat} (hw : 0 < w.depth) (hn : w.next? p d = some v)
    (h : Ends p d v r) : Ends p d w r := by
  obtain ⟨n, u, hturns, hhalted, hr⟩ := h
  exact ⟨n + 1, u, .cons hw hn hturns, hhalted, hr⟩

private theorem ends_here (p : Program) (d : Direction) (j : Nat) : Ends p d ⟨j, 0⟩ (some j) :=
  ⟨0, _, .nil _, .inl le_rfl, rfl⟩

/-- The walk to the right is this loop. -/
theorem ends_ahead {m i depth : Nat} (hd : 0 < depth) (hm : p.size ≤ i + 1 + m) :
    Ends p .forward ⟨i, depth⟩ (ahead p m (i + 1) depth) := by
  have hdepth : 0 < (depth : Int) := by omega
  induction m generalizing i depth with
  | zero =>
    apply ends_of_stuck hdepth _ rfl
    rw [next?_forward, Program.get?_eq_none_iff.mpr hm, Option.map_none]
  | succ m ih =>
    have hnext := next?_forward p i depth
    cases hc : p.get? (i + 1) with
    | none =>
      rw [hc] at hnext
      exact ends_of_stuck hdepth hnext (by simp [ahead, hc])
    | some c =>
      have hafter := forward_depthAfter hd c
      rw [hc, Option.map_some, ← hafter] at hnext
      apply ends_of_next hdepth hnext
      cases he : Direction.forward.depthAfter depth c with
      | zero => simpa [ahead, hc, he] using ends_here p .forward (i + 1)
      | succ e => simpa [ahead, hc, he] using ih (Nat.succ_pos e) (by omega) (by omega)

/-- The walk to the left is this loop. -/
theorem ends_behind {i depth : Nat} (hd : 0 < depth) :
    Ends p .backward ⟨i, depth⟩ (behind p i depth) := by
  have hdepth : 0 < (depth : Int) := by omega
  induction i generalizing depth with
  | zero => exact ends_of_stuck hdepth (next?_backward_zero p depth) rfl
  | succ i ih =>
    have hnext := next?_backward_succ p i depth
    cases hc : p.get? i with
    | none =>
      rw [hc] at hnext
      exact ends_of_stuck hdepth hnext (by simp [behind, hc])
    | some c =>
      have hafter := backward_depthAfter hd c
      rw [hc, Option.map_some, ← hafter] at hnext
      apply ends_of_next hdepth hnext
      cases he : Direction.backward.depthAfter depth c with
      | zero => simpa [behind, hc, he] using ends_here p .backward i
      | succ e => simpa [behind, hc, he] using ih (Nat.succ_pos e) (by omega)

private theorem ends_partner? (p : Program) (start : Nat) (d : Direction) :
    Ends p d ⟨start, 1⟩ (partner? p start d) := by
  cases d with
  | forward => exact ends_ahead Nat.one_pos (by omega)
  | backward => exact ends_behind Nat.one_pos

end Walk

open Walk

/-- A scan is this loop: it answers with the position at which every loop is closed. -/
theorem scan_eq_ok_iff_turns {p : Program} {start j : Nat} {d : Direction} :
    scan p start d = .ok j ↔ ∃ n, Turns p d n ⟨start, 1⟩ ⟨j, 0⟩ := by
  obtain ⟨n, v, hturns, hhalted, hr⟩ := ends_partner? p start d
  rw [scan_eq_ok_iff]
  constructor
  · intro h
    rw [h] at hr
    exact ⟨n, hr ▸ hturns⟩
  · intro ⟨m, h⟩
    obtain rfl := hturns.unique hhalted h (.inl le_rfl)
    cases hpartner : partner? p start d with
    | none =>
      rw [hpartner] at hr
      exact absurd hr (lt_irrefl _)
    | some k =>
      rw [hpartner] at hr
      exact congrArg some (congrArg Walk.position hr).symm

/-- A scan fails when the loop is stuck with a loop open. -/
theorem exists_error_iff_turns {p : Program} {start : Nat} {d : Direction} :
    (∃ e, scan p start d = .error e) ↔
      ∃ n w, Turns p d n ⟨start, 1⟩ w ∧ 0 < w.depth ∧ w.next? p d = none := by
  obtain ⟨n, v, hturns, hhalted, hr⟩ := ends_partner? p start d
  constructor
  · intro ⟨e, he⟩
    cases hpartner : partner? p start d with
    | none =>
      rw [hpartner] at hr
      exact ⟨n, v, hturns, hr, hhalted.resolve_left (not_le.mpr hr)⟩
    | some j =>
      rw [scan_eq_ok_iff.mpr hpartner] at he
      cases he
  · intro ⟨m, w, h, hdeep, hstuck⟩
    obtain rfl := hturns.unique hhalted h (.inr hstuck)
    cases hpartner : partner? p start d with
    | none => exact ⟨_, by rw [scan, hpartner]⟩
    | some j =>
      rw [hpartner] at hr
      obtain rfl := hr
      exact absurd hdeep (lt_irrefl _)

private theorem sum_weight (w : List Char) : (w.map weight).sum = w.count '[' - w.count ']' := by
  induction w with
  | nil => rfl
  | cons c w ih =>
    rw [List.map_cons, List.sum_cons, ih, List.count_cons, List.count_cons]
    by_cases ho : c = '['
    · subst ho
      simp [weight]
      ring
    · by_cases hc : c = ']'
      · subst hc
        simp [weight]
        ring
      · simp [weight_eq_zero ho hc, ho, hc]

private theorem height_segment {p : Program} {i j : Nat} (hij : i ≤ j) : height p j =
    height p i + (segment p i j).count '[' - (segment p i j).count ']' := by
  have happend := segment_append (p := p) (Nat.zero_le i) hij
  have hheight (k : Nat) : height p k = ((segment p 0 k).map weight).sum := by simp [height, segment]
  rw [hheight i, hheight j, ← happend, List.map_append, List.sum_append, sum_weight (segment p i j)]
  ring

def OneMore (b b' : Char) (w : List Char) : Prop := w.count b = w.count b' + 1

private theorem oneMore_closing_iff {p : Program} {i j : Nat} (hij : i ≤ j) :
    OneMore ']' '[' (segment p i j) ↔ height p j + 1 = height p i := by
  rw [OneMore, height_segment hij]
  omega

private theorem oneMore_opening_iff {p : Program} {i j : Nat} (hij : i ≤ j) :
    OneMore '[' ']' (segment p i j) ↔ height p j = height p i + 1 := by
  rw [OneMore, height_segment hij]
  omega

private theorem height_step {p : Program} {k : Nat} (hk : k < p.size) :
    height p k - 1 ≤ height p (k + 1) ∧ height p (k + 1) ≤ height p k + 1 := by
  obtain ⟨c, hc⟩ := Program.exists_get? hk
  have hs := height_succ hc
  have hw := abs_weight_le c
  omega

/-- To the right the height comes below a level only by way of the level just under it. -/
private theorem level_le_of_not_under {p : Program} {i j : Nat} (hj : j ≤ p.size)
    (hn : ∀ k, i < k → k ≤ j → height p k + 1 ≠ height p i) {k : Nat} (hik : i ≤ k) (hkj : k ≤ j) :
    height p i ≤ height p k := by
  induction k, hik using Nat.le_induction with
  | base => exact le_rfl
  | succ k hik ih =>
    have hlevel := ih (by omega)
    have hstep := height_step (p := p) (k := k) (by omega)
    have hne := hn (k + 1) (by omega) hkj
    omega

private theorem level_le_of_not_over {p : Program} {i j : Nat} (hi : i ≤ p.size)
    (hn : ∀ k, j < k → k < i → height p i ≠ height p k + 1) {k : Nat} (hjk : j < k) (hki : k ≤ i) :
    height p i ≤ height p k := by
  induction hm : i - k generalizing k with
  | zero =>
    obtain rfl : k = i := by omega
    exact le_rfl
  | succ m ih =>
    have hlevel := ih (k := k + 1) (by omega) (by omega) (by omega)
    have hstep := height_step (p := p) (k := k) (by omega)
    have hne := hn k hjk (by omega)
    omega

/-- A scan to the right finds the first place behind which one more loop was closed than opened. -/
theorem scan_forward_eq_ok_iff {p : Program} {start j : Nat} : scan p start .forward = .ok j ↔
    IsLeast {k | start < k ∧ k < p.size ∧ OneMore ']' '[' (segment p (start + 1) (k + 1))} j := by
  have hset (k : Nat) (hk : start < k) := oneMore_closing_iff (p := p) (i := start + 1) (j := k + 1)
    (by omega)
  rw [scan_eq_ok_iff, partner?, ahead_eq_some_iff Nat.one_pos]
  constructor
  · rintro ⟨hij, _, hj, hfall, habove⟩
    refine ⟨⟨hij, hj, (hset j hij).mpr (by push_cast at hfall; exact hfall)⟩, ?_⟩
    rintro k ⟨hk, _, hmore⟩
    by_contra hkj
    have hlevel := (hset k hk).mp hmore
    have := habove (k + 1) (by omega) (by omega)
    omega
  · rintro ⟨⟨hij, hj, hmore⟩, hleast⟩
    refine ⟨hij, by omega, hj, by push_cast; exact (hset j hij).mp hmore, ?_⟩
    intro k hik hkj
    have hlevel := level_le_of_not_under (p := p) (i := start + 1) (j := j) hj.le (by
      intro l hil hlj hl
      obtain ⟨l, rfl⟩ := Nat.exists_eq_add_one_of_ne_zero (n := l) (by omega)
      have := hleast ⟨by omega, by omega, (hset l (by omega)).mpr hl⟩
      omega) hik.le hkj
    omega

/-- A scan to the left finds the last place from which on one more loop was opened than closed. -/
theorem scan_backward_eq_ok_iff {p : Program} {start j : Nat} : scan p start .backward = .ok j ↔
    start ≤ p.size ∧ IsGreatest {k | k < start ∧ OneMore '[' ']' (segment p k start)} j := by
  have hset (k : Nat) (hk : k < start) := oneMore_opening_iff (p := p) hk.le
  rw [scan_eq_ok_iff, partner?, behind_eq_some_iff Nat.one_pos]
  apply and_congr_right
  intro hstart
  constructor
  · rintro ⟨hj, hrise, habove⟩
    refine ⟨⟨hj, (hset j hj).mpr (by push_cast at hrise; exact hrise)⟩, ?_⟩
    rintro k ⟨hk, hmore⟩
    by_contra hkj
    have hlevel := (hset k hk).mp hmore
    have := habove k (by omega) hk
    omega
  · rintro ⟨⟨hj, hmore⟩, hgreatest⟩
    refine ⟨hj, by push_cast; exact (hset j hj).mp hmore, ?_⟩
    intro k hjk hk
    have hlevel := level_le_of_not_over (p := p) (i := start) (j := j) hstart (by
      intro l hjl hl hlevel
      have := hgreatest ⟨hl, (hset l hl).mpr hlevel⟩
      omega) hjk hk.le
    omega

private theorem ahead_congr {p q : Program} {n i depth : Nat}
    (h : ∀ k, i ≤ k → q.get? k = p.get? k) : ahead q n i depth = ahead p n i depth := by
  induction n generalizing i depth with
  | zero => rfl
  | succ n ih =>
    have hrest (e : Nat) : ahead q n (i + 1) (e + 1) = ahead p n (i + 1) (e + 1) :=
      ih fun k hk => h k (by omega)
    simp only [ahead, h i le_rfl, hrest]

private theorem behind_congr {p q : Program} {i depth : Nat}
    (h : ∀ k, k < i → q.get? k = p.get? k) : behind q i depth = behind p i depth := by
  induction i generalizing depth with
  | zero => rfl
  | succ i ih =>
    have hrest (e : Nat) : behind q i (e + 1) = behind p i (e + 1) := ih fun k hk => h k (by omega)
    simp only [behind, h i (by omega), hrest]

/-- A scan does not look at the character that it starts from. -/
theorem scan_congr {p q : Program} {start : Nat} (hsize : q.size = p.size)
    (h : ∀ k, k ≠ start → q.get? k = p.get? k) (d : Direction) : scan q start d = scan p start d := by
  have hpartner : partner? q start d = partner? p start d := by
    cases d with
    | forward =>
      rw [partner?, partner?, hsize]
      exact ahead_congr fun k hk => h k (by omega)
    | backward => exact behind_congr fun k hk => h k (by omega)
  rw [scan, scan, hpartner]

/-- A scan from any position, on the program or not, finds the nearest place in its direction where
one bracket of the other side more has been passed than of its own side. It fails where there is no
such place, and the error names the position and the side. The character at the position does not
matter. The loop behind it ends in every case, after no more turns than the program has characters;
its position moves by one each time and stays on the program, and its depth stays between zero and
one more than the size of the program. -/
theorem scan_finds_nearest (p : Program) (start : Nat) :
    (∀ j, scan p start .forward = .ok j ↔
      IsLeast {k | start < k ∧ k < p.size ∧
        OneMore ']' '[' (segment p (start + 1) (k + 1))} j) ∧
    (∀ j, scan p start .backward = .ok j ↔
      start ≤ p.size ∧ IsGreatest {k | k < start ∧ OneMore '[' ']' (segment p k start)} j) ∧
    (∀ d e, scan p start d = .error e ↔
      (∀ j, scan p start d ≠ .ok j) ∧ e = .unmatchedBracket start d.side) ∧
    (p.size ≤ start → scan p start .forward = .error (.unmatchedBracket start .opening)) ∧
    (start = 0 ∨ p.size < start →
      scan p start .backward = .error (.unmatchedBracket start .closing)) ∧
    (∀ q : Program, q.size = p.size → (∀ k, k ≠ start → q.get? k = p.get? k) →
      ∀ d, scan q start d = scan p start d) ∧
    ∀ d,
      (∀ j, scan p start d = .ok j ↔ ∃ n, Turns p d n ⟨start, 1⟩ ⟨j, 0⟩) ∧
      ((∃ e, scan p start d = .error e) ↔
        ∃ n w, Turns p d n ⟨start, 1⟩ w ∧ 0 < w.depth ∧ w.next? p d = none) ∧
      ∀ n w, Turns p d n ⟨start, 1⟩ w → n ≤ p.size ∧
        (w.position : Int) = start + n * d.step ∧ (0 < n → w.position < p.size) ∧
        0 ≤ w.depth ∧ w.depth ≤ p.size + 1 := by
  refine ⟨fun j => scan_forward_eq_ok_iff, fun j => scan_backward_eq_ok_iff,
    fun d e => scan_eq_error_iff, ?_, ?_, fun q => scan_congr, fun d =>
    ⟨fun j => scan_eq_ok_iff_turns, exists_error_iff_turns, ?_⟩⟩
  · intro h
    refine scan_eq_error_iff.mpr ⟨fun j hj => ?_, rfl⟩
    have := (scan_forward_eq_ok_iff.mp hj).1
    simp only [Set.mem_ofPred_eq] at this
    omega
  · intro h
    refine scan_eq_error_iff.mpr ⟨fun j hj => ?_, rfl⟩
    obtain ⟨hsize, hmem, _⟩ := scan_backward_eq_ok_iff.mp hj
    simp only [Set.mem_ofPred_eq] at hmem
    omega
  · intro n w h
    obtain ⟨hplace, hlow, hhigh, hon⟩ := h.bounds (by simp)
    have hn := h.le_size (by simp)
    exact ⟨hn, hplace, fun hpos => (hon hpos).1, hlow, by simp only at hhigh; omega⟩

example : scan (.ofList [']', ']', 'x', '[', '[']) 1 .backward =
    .error (.unmatchedBracket 1 .closing) := by decide

end Bracket
end ByteTape
