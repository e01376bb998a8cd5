import ByteTape.Proofs.Comments.Relocation
import ByteTape.Proofs.Comments.Stripping
import ByteTape.Proofs.Machine.Comments

/-! Comments are inert. A run and the run of its program without comments go in lock step: at
each instruction they differ in the numbers of the places and in nothing else. -/
namespace ByteTape
open ByteTape.Bracket

/-- The memos have counted the same scans, and know the same pairs of the program `p`, the
second one by their places among the instructions. -/
structure JumpMemo.Twin (p : Program) (m m' : JumpMemo) : Prop where
  scans : m'.scans = m.scans
  known : ∀ i (a : Instruction), p.get? i = some a.symbol →
    (m'.lookup? (p.rank i) = none ↔ m.lookup? i = none)

private theorem JumpMemo.Twin.visit {p : Program} {m m' : JumpMemo} {i j : Nat} (h : Twin p m m')
    (hroom : p.size ≤ m.partner.size) (hroom' : p.stripped.size ≤ m'.partner.size)
    (hp : Partner p i j) : Twin p (m.visit i j) (m'.visit (p.rank i) (p.rank j)) := by
  obtain ⟨a, hi⟩ := hp.symm.symbol
  obtain ⟨b, hj⟩ := hp.symbol
  have hp' := (partner_stripped hi hj).mpr hp
  cases hl : m.lookup? i with
  | some l =>
    have hl' : m'.lookup? (p.rank i) ≠ none := by
      rw [ne_eq, h.known i a hi, hl]
      simp
    obtain ⟨l', hl'⟩ := Option.ne_none_iff_exists'.mp hl'
    simpa [JumpMemo.visit, hl, hl'] using h
  | none =>
    have hl' := (h.known i a hi).mpr hl
    have hbound := hp.lt_size
    have hbound' := hp'.lt_size
    have hpartner := hp.symm.lt_size
    have hpartner' := hp'.symm.lt_size
    simp only [JumpMemo.visit, hl, hl']
    refine ⟨congrArg (· + 1) h.scans, ?_⟩
    intro k c hk
    rw [lookup?_learn (by omega) (by omega), lookup?_learn (by omega) (by omega)]
    simp only [Program.rank_inj hk hj, Program.rank_inj hk hi]
    split
    · simp
    · split
      · simp
      · exact h.known k c hk

namespace Execution
variable {σ : Type} {x x' y y' : Execution σ}

structure Stripped (x x' : Execution σ) : Prop where
  state : x' = x.relocated x.program.stripped (x.program.rank x.ip) x'.memo
  memo : x.memo.Twin x.program x'.memo
  untraced : x.tracer = none

structure Paired (f : Nat → Nat) (a a' : Execution σ × Except Fault Unit) : Prop where
  state : a.1.Stripped a'.1
  result : a'.2 = a.2.mapError (·.renumber f)

theorem Stripped.exists_eq (h : x.Stripped x') :
    ∃ memo, x' = x.relocated x.program.stripped (x.program.rank x.ip) memo ∧
      x.memo.Twin x.program memo :=
  ⟨x'.memo, h.state, h.memo⟩

private theorem Stripped.untraced' (h : x.Stripped x') : x'.tracer = none := by
  rw [h.state]
  exact h.untraced

/-- Passing a comment is nothing without comments. -/
theorem Stripped.pass (h : x.Stripped x') (hc : x.program.isComment x.ip = true) :
    Stripped { x with ip := x.ip + 1 } x' := by
  obtain ⟨c, hchar, hcomment⟩ := Program.isComment_iff.mp hc
  refine ⟨?_, h.memo, h.untraced⟩
  rw [h.state]
  simp only [relocated, Program.rank_succ_of_comment hchar hcomment]

theorem Stripped.signal (h : x.Stripped x') (w : Option Bool) :
    (x.signal w).Stripped (x'.signal w) := by
  obtain ⟨memo, rfl, hmemo⟩ := h.exists_eq
  cases w with
  | none => exact h
  | some value => exact ⟨rfl, hmemo, h.untraced⟩

private theorem Stripped.count (h : x.Stripped x') {a : Instruction}
    (ha : x.program.get? x.ip = some a.symbol) :
    Stripped { x with steps := x.steps + 1, ip := x.ip + 1 }
      { x' with steps := x'.steps + 1, ip := x'.ip + 1 } := by
  obtain ⟨memo, rfl, hmemo⟩ := h.exists_eq
  refine ⟨?_, hmemo, h.untraced⟩
  simp only [relocated, Program.rank_succ_of_symbol ha]

variable [ByteOutput σ]

/-- A bracket does the same without the comments between it and its partner. -/
private theorem paired_bracket {i : Instruction} {d : Direction} (h : x.Stripped x')
    (hr : x.Remembers) (hr' : x'.Remembers) (hi : x.program.get? x.ip = some i.symbol)
    (hd : i.direction? = some d) :
    Paired x.program.rank (x.perform i) (x'.perform i) ∧
    ((x.perform i).2 = .ok () → ∃ a : Instruction,
      x.program.get? (x.perform i).1.ip = some a.symbol) := by
  obtain ⟨memo, rfl, hmemo⟩ := h.exists_eq
  have hi' := Program.get?_stripped hi
  have hb' : x.program.stripped.get? (x.program.rank x.ip) = some d.bracket := by
    rw [hi', Instruction.direction?_eq_some_iff.mp hd]
  rw [perform_of_direction hd (x.relocated _ _ _)]
  have hcalls : (x.relocated x.program.stripped (x.program.rank x.ip) memo).calls d =
      x.calls d := by cases d <;> rfl
  rw [hcalls]
  rcases bracket_cases hr hi hd with ⟨hc, hx⟩ | ⟨hc, j, hp, hx⟩ | ⟨hc, hp, hx⟩
  · rw [hx, hc]
    exact ⟨⟨h, rfl⟩, fun _ => ⟨i, hi⟩⟩
  · obtain ⟨b, hj⟩ := hp.symbol
    rw [hx, hc, if_pos rfl, jump_of_partner hr' hb' ((partner_stripped hi hj).mpr hp)]
    exact ⟨⟨⟨rfl, hmemo.visit hr.room hr'.room hp, h.untraced⟩, rfl⟩, fun _ => ⟨b, hj⟩⟩
  · rw [hx, hc, if_pos rfl, jump_of_unpaired hr' hb' (unpaired_stripped hi hp)]
    exact ⟨⟨h, rfl⟩, by simp⟩

private theorem paired_perform {i : Instruction} (h : x.Stripped x') (hr : x.Remembers)
    (hr' : x'.Remembers) (hi : x.program.get? x.ip = some i.symbol) :
    Paired x.program.rank (x.perform i) (x'.perform i) ∧
    ((x.perform i).2 = .ok () → ∃ a : Instruction,
      x.program.get? (x.perform i).1.ip = some a.symbol) := by
  cases hd : i.direction? with
  | some d => exact paired_bracket h hr hr' hi hd
  | none =>
    have hstill := still_perform hd x
    obtain ⟨memo, rfl, hmemo⟩ := h.exists_eq
    rw [perform_relocated x.program.stripped memo hd]
    refine ⟨⟨⟨?_, ?_, hstill.tracer.trans h.untraced⟩, rfl⟩, fun _ => ⟨i, hstill.ip ▸ hi⟩⟩
    · rw [hstill.program, hstill.ip]
      rfl
    · rw [hstill.program, hstill.memo]
      exact hmemo

/-- A run and the run without comments have come equally far. A value stored in the cancel flag
while comments were passed is not yet stored in a run that has none to pass. -/
inductive LockStep (held : Option Bool) : Progress σ → Progress σ → Prop
  | running {x x' : Execution σ} (h : x.Stripped x') :
    LockStep held (.running (x.signal held)) (.running x')
  | ended {x x' : Execution σ} {result : Except Fault Unit} (h : x.Stripped x') :
    LockStep held (.ended x result)
      (.ended x' (result.mapError (·.renumber x.program.rank)))

private theorem lockStep_execute {i : Instruction} (h : x.Stripped x') (hr : x.Remembers)
    (hr' : x'.Remembers) (hi : x.program.get? x.ip = some i.symbol) :
    LockStep none (x.execute i) (x'.execute i) := by
  obtain ⟨⟨hstate, hresult⟩, hplace⟩ := paired_perform h hr hr' hi
  have hprogram := (kept_perform i x).program
  have hrecord (z : Execution σ) (hz : z.tracer = none) (before : Snapshot) :
      z.record i before = (z, .ok ()) := by
    simp only [record, hz]
  rcases hx' : x'.perform i with ⟨y', result'⟩
  rcases hx : x.perform i with ⟨y, e | _⟩
  · rw [hx, hx'] at hstate hresult
    rw [hx] at hprogram
    obtain rfl : result' = _ := hresult
    simp only [execute, hx, hx']
    rw [← hprogram]
    exact .ended hstate
  · rw [hx, hx'] at hstate hresult
    rw [hx] at hplace hprogram
    obtain rfl : result' = _ := hresult
    obtain ⟨a, ha⟩ := hplace rfl
    simp only [execute, hx, hx', Except.mapError, hrecord _ hstate.untraced,
      hrecord _ hstate.untraced']
    exact .running (hstate.count (hprogram ▸ ha))

/-- At an instruction or at the end both runs take the same tick. -/
theorem lockStep_tick (h : x.Stripped x') (hr : x.Remembers) (hr' : x'.Remembers)
    (hc : x.program.isComment x.ip = false) : LockStep none x.tick x'.tick := by
  rcases Program.not_isComment_iff.mp hc with hend | ⟨i, hi⟩
  · have hend' : x'.program.size ≤ x'.ip := by
      rw [h.state]
      exact (Program.rank_of_size_le hend).ge
    rw [tick_of_end hend, tick_of_end hend']
    exact .ended h
  · have hi' : x'.program.get? x'.ip = some i.symbol := by
      rw [h.state]
      exact Program.get?_stripped hi
    have hveto : x'.veto = x.veto := by
      rw [h.state]
      rfl
    cases hv : x.veto with
    | none =>
      rw [hv] at hveto
      simp only [tick, hi, hi', hv, hveto, Instruction.ofChar?_symbol]
      exact lockStep_execute h hr hr' hi
    | some e =>
      rw [hv] at hveto
      simp only [tick, hi, hi', hv, hveto, Instruction.ofChar?_symbol]
      have hsame : LockStep none (.ended x (.error (.error e))) _ := .ended h
      simp only [Except.mapError, Fault.renumber,
        RunError.renumber_of_ip? (ip?_of_veto hv)] at hsame
      exact hsame

end Execution
end ByteTape
