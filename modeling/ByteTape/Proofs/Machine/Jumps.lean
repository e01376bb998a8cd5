import ByteTape.Proofs.Machine.Lasting

/-! The jumps of a history and their traces in the memo. A tick either crosses a pair,
which is then known, or leaves the memo as it is. -/
namespace ByteTape
open ByteTape.Bracket

def Direction.pair : Direction → Nat → Nat → Nat × Nat
  | .forward, i, j => (i, j)
  | .backward, i, j => (j, i)

namespace Execution
variable {σ : Type}

def jump? (x : Execution σ) : Option Direction :=
  match x.veto, (x.program.get? x.ip).bind Instruction.ofChar? with
  | none, some i => i.direction?.filter x.calls
  | _, _ => none

/-- The pair that the next tick jumps across, from one end to the other. -/
def crossed? (x : Execution σ) : Option (Nat × Nat) :=
  match x.jump? with
  | none => none
  | some d =>
    match scan x.program x.ip d with
    | .ok j => some (d.pair x.ip j)
    | .error _ => none

/-- The pair that the next tick finds by a scan of its own. -/
def scanned? (x : Execution σ) : Option (Nat × Nat) :=
  if x.memo.lookup? x.ip = none then x.crossed? else none

private theorem jump?_eq_some_iff {x : Execution σ} {d : Direction} :
    x.jump? = some d ↔
      x.veto = none ∧ x.program.get? x.ip = some d.bracket ∧ x.calls d = true := by
  unfold jump?
  cases hv : x.veto with
  | some e => simp
  | none =>
    cases hc : x.program.get? x.ip with
    | none => simp
    | some c =>
      cases hi : Instruction.ofChar? c with
      | none =>
        have hne : c ≠ d.bracket := by
          rintro rfl
          cases d <;> cases hi
        simp [hi, hne]
      | some i =>
        obtain rfl := Instruction.ofChar?_eq_some_iff.mp hi
        simp [Option.filter_eq_some_iff, Instruction.direction?_eq_some_iff]

private theorem crossed?_eq_some_iff {x : Execution σ} {q : Nat × Nat} :
    x.crossed? = some q ↔ ∃ d j, x.jump? = some d ∧ Partner x.program x.ip j ∧ q = d.pair x.ip j := by
  unfold crossed?
  cases hd : x.jump? with
  | none => simp
  | some d =>
    have hb := (jump?_eq_some_iff.mp hd).2.1
    dsimp only
    cases hj : scan x.program x.ip d with
    | error e =>
      have hn := (scan_eq_error_iff.mp hj).1
      simp only [reduceCtorEq, false_iff]
      intro h
      obtain ⟨d', j, hd', hp, _⟩ := h
      obtain rfl := Option.some.inj hd'
      exact hn j ((scan_eq_ok_iff_partner hb).mpr hp)
    | ok j =>
      have hp := (scan_eq_ok_iff_partner hb).mp hj
      simp only [Option.some.injEq]
      constructor
      · rintro rfl
        exact ⟨d, j, rfl, hp, rfl⟩
      · intro h
        obtain ⟨d', j', rfl, hp', rfl⟩ := h
        rw [hp.unique hp']

variable [ByteOutput σ]

/-- What a tick does to the memo: a pair that is crossed is known afterwards, and
nothing else is learned. -/
theorem memo_tick {x : Execution σ} (hr : x.Remembers) :
    ((∃ i j, x.crossed? = some (i, j) ∧ Matched x.program i j ∧
        ((x.ip = i ∧ x.tick.state.memo = x.memo.visit i j) ∨
          (x.ip = j ∧ x.tick.state.memo = x.memo.visit j i))) ∨
      (x.crossed? = none ∧ x.tick.state.memo = x.memo)) ∧
    x.tick.state.program = x.program := by
  have hnone (h : x.jump? = none) : x.crossed? = none := by simp [crossed?, h]
  rw [← tickBy_perform]
  rcases x.tickBy_cases perform with ⟨hc, he⟩ | ⟨c, hc, hi, he⟩ | ⟨i, e, hc, hv, he⟩ |
    ⟨i, hc, hv, he⟩
  · rw [he]
    exact ⟨.inr ⟨hnone (by simp [jump?, hc]), rfl⟩, rfl⟩
  · rw [he]
    exact ⟨.inr ⟨hnone (by simp [jump?, hc, hi]), rfl⟩, rfl⟩
  · rw [he]
    exact ⟨.inr ⟨hnone (by simp [jump?, hv]), rfl⟩, rfl⟩
  · obtain ⟨t, n, k, hstate⟩ := x.state_executeBy perform i
    rw [he, hstate]
    refine ⟨?_, (kept_perform i x).program⟩
    have hjump : ∀ d, x.jump? = some d ↔ i.direction? = some d ∧ x.calls d = true := by
      intro d
      simp [jump?, hv, hc, Option.filter_eq_some_iff]
    rcases memo_perform hr hc with ⟨d, j, hd, hcall, hpart, hx⟩ | ⟨hn, hx⟩
    · have hj := (hjump d).mpr ⟨hd, hcall⟩
      have hq := crossed?_eq_some_iff.mpr ⟨d, j, hj, hpart, rfl⟩
      rw [hx]
      rcases hpart.matched_of_bracket (jump?_eq_some_iff.mp hj).2.1 with ⟨rfl, hm⟩ | ⟨rfl, hm⟩
      · exact .inl ⟨x.ip, j, hq, hm, .inl ⟨rfl, rfl⟩⟩
      · exact .inl ⟨j, x.ip, hq, hm, .inr ⟨rfl, rfl⟩⟩
    · refine .inr ⟨?_, hx⟩
      cases hq : x.crossed? with
      | none => rfl
      | some q =>
        obtain ⟨d, j, hd, hpart, _⟩ := crossed?_eq_some_iff.mp hq
        obtain ⟨hi, hcall⟩ := (hjump d).mp hd
        exact absurd hpart (hn d j hi hcall)

theorem remembers_tick {x : Execution σ} (hr : x.Remembers) : x.tick.state.Remembers := by
  obtain ⟨hm, hp⟩ := memo_tick hr
  have hroom := hr.room
  rcases hm with ⟨i, j, _, hq, ⟨_, hm⟩ | ⟨_, hm⟩⟩ | ⟨_, hm⟩
  · exact ⟨by rw [hm, hp]; exact hr.sound.visit hroom (.inl hq), by simpa [hm, hp] using hroom⟩
  · exact ⟨by rw [hm, hp]; exact hr.sound.visit hroom (.inr hq), by simpa [hm, hp] using hroom⟩
  · exact ⟨by rw [hm, hp]; exact hr.sound, by rw [hm, hp]; exact hroom⟩

end Execution

theorem Machine.lasting_remembers {σ : Type} [ByteOutput σ] : Lasting σ Remembers where
  cancel _ _ h := ⟨h.sound, h.room⟩
  tracer _ _ h := ⟨h.sound, h.room⟩
  rewind _ h := ⟨h.sound, h.room⟩
  tick _ h := Execution.remembers_tick h

end ByteTape
