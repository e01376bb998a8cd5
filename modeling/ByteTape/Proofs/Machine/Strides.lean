import ByteTape.Proofs.Machine.Comments
import ByteTape.Proofs.Machine.Past
import ByteTape.Proofs.Machine.Table

/-! The instructions that a run executes, one after the other. Each is counted, and between one and
the next the run passes comments only. -/
namespace ByteTape

/-- An instruction that does not fail, with the states before and after it. -/
structure Stride (σ : Type) where
  before : Execution σ
  instruction : Instruction
  after : Execution σ

def Stride.row {σ : Type} (s : Stride σ) : Trace.Row := s.after.row s.instruction s.before.snapshot

namespace Execution
variable {σ : Type} [ByteOutput σ] {x y : Execution σ} {s : Stride σ} {ws : List (Option Bool)}

def stride? (x : Execution σ) : Option (Stride σ) :=
  x.due?.bind fun i =>
    match x.perform i with
    | (y, .ok ()) => some ⟨x, i, y⟩
    | (_, .error _) => none

theorem stride?_eq_some_iff : x.stride? = some s ↔ s.before = x ∧ x.due? = some s.instruction ∧
    x.perform s.instruction = (s.after, .ok ()) := by
  obtain ⟨before, i, after⟩ := s
  simp only [stride?, Option.bind_eq_some_iff]
  constructor
  · rintro ⟨j, hj, hs⟩
    rcases hp : x.perform j with ⟨y, e | _⟩
    · rw [hp] at hs
      cases hs
    · rw [hp] at hs
      cases hs
      exact ⟨rfl, hj, hp⟩
  · rintro ⟨rfl, hi, hp⟩
    exact ⟨i, hi, by simp [hp]⟩

/-- The rows of a run are those of the instructions that it executes. -/
theorem row?_eq (x : Execution σ) : x.row? = x.stride?.map Stride.row := by
  unfold row? rowBy? stride? due?
  cases hv : x.veto with
  | some e => simp
  | none =>
    cases hi : (x.program.get? x.ip).bind Instruction.ofChar? with
    | none => simp
    | some i =>
      simp only [if_true, Option.bind_some]
      rcases x.perform i with ⟨y, e | _⟩ <;> rfl

/-- A tick counts the instruction that it executes. -/
theorem steps_tick (h : x.Quiet) : x.tick.state.steps = x.steps + x.stride?.toList.length := by
  cases hd : x.due? with
  | none =>
    have hs : x.stride? = none := by simp [stride?, hd]
    rcases tick_of_idle hd with he | ⟨r, he⟩ <;> rw [he, hs] <;> rfl
  | some i =>
    have hkept := (kept_perform i x).steps
    rw [tick_of_due hd, executeBy]
    rcases hp : x.perform i with ⟨y, e | _⟩ <;> rw [hp] at hkept
    · have hs : x.stride? = none := by simp [stride?, hd, hp]
      rw [hs]
      exact hkept
    · obtain ⟨t, hr, _⟩ := exists_record_of_perform h hp
      have hs : x.stride? = some ⟨x, i, y⟩ := stride?_eq_some_iff.mpr ⟨rfl, hd, hp⟩
      simp only [hr, hs]
      exact congrArg (· + 1) hkept

/-- At each moment the count is that of the instructions executed before. -/
theorem historic_steps (n : Nat) : Historic (σ := σ) fun past x =>
    x.Quiet ∧ x.steps = n + (past.filterMap stride?).length where
  signal past x w h := ⟨steady_quiet.signal x w h.1, by cases w <;> exact h.2⟩
  tick past x y h ht := by
    have hsteps := steps_tick h.1
    rw [ht, Progress.state, h.2] at hsteps
    refine ⟨steady_quiet.tick x y h.1 ht, ?_⟩
    rw [hsteps, List.filterMap_append, List.length_append, Nat.add_assoc]
    cases hs : x.stride? <;> simp [hs]

/-- At each moment only comments have been passed since the last instruction. -/
theorem historic_passed : Historic (σ := σ) fun past x =>
    ∀ s, (past.filterMap stride?).getLast? = some s → s.after.ip < x.ip ∧
      ∀ j, s.after.ip < j → j < x.ip → x.program.isComment j = true where
  signal past x w h := by cases w <;> exact h
  tick past x y h ht s hs := by
    rw [List.filterMap_append] at hs
    rcases running_cases ht with ⟨c, hc, hcomment, rfl⟩ | ⟨i, z, t, hc, hv, hp, _, rfl⟩
    · have hnone : x.stride? = none := by simp [stride?, due?, hc, hcomment]
      rw [List.filterMap_cons_none hnone, List.filterMap_nil, List.append_nil] at hs
      obtain ⟨hlt, hpassed⟩ := h s hs
      refine ⟨Nat.lt_succ_of_lt hlt, fun j hj hle => ?_⟩
      rcases Nat.lt_succ_iff_lt_or_eq.mp hle with hlt | rfl
      · exact hpassed j hj hlt
      · exact Program.isComment_iff.mpr ⟨c, hc, hcomment⟩
    · have hsome : x.stride? = some ⟨x, i, z⟩ :=
        stride?_eq_some_iff.mpr ⟨rfl, due?_eq_some_iff.mpr ⟨hv, hc⟩, hp⟩
      rw [List.filterMap_cons_some hsome, List.filterMap_nil, List.getLast?_append] at hs
      obtain rfl := Option.some.inj hs
      exact ⟨Nat.lt_succ_self _, fun j hj hle => absurd hle (Nat.not_lt.mpr hj)⟩

section Trail
variable {k : Nat} {s' : Stride σ}

/-- The instruction number `k` of a run is executed at a moment whose count is `k`. -/
theorem exists_moment_of_stride (hx : x.Quiet) (hzero : x.steps = 0)
    (hs : ((x.trail perform ws).filterMap stride?)[k]? = some s) :
    s.before ∈ x.trail perform ws ∧ s.before.steps = k ∧ s.before.due? = some s.instruction ∧
      s.before.perform s.instruction = (s.after, .ok ()) := by
  obtain ⟨pre, z, post, htrail, hz, hk⟩ := exists_of_getElem?_filterMap hs
  obtain ⟨rfl, hd, hp⟩ := stride?_eq_some_iff.mp hz
  obtain ⟨_, hsteps⟩ := (historic_steps x.steps).moment ⟨hx, rfl⟩ htrail
  exact ⟨by simp [htrail], by omega, hd, hp⟩

/-- Between two instructions of a run there are comments only. -/
theorem comments_between
    (hs : ((x.trail perform ws).filterMap stride?)[k]? = some s)
    (hs' : ((x.trail perform ws).filterMap stride?)[k + 1]? = some s') :
    s.after.ip < s'.before.ip ∧
      ∀ j, s.after.ip < j → j < s'.before.ip → s'.before.program.isComment j = true := by
  obtain ⟨pre, z, post, htrail, hz, hk⟩ := exists_of_getElem?_filterMap hs'
  obtain ⟨rfl, _⟩ := stride?_eq_some_iff.mp hz
  apply historic_passed.moment (x := x) (by simp) htrail s
  rw [htrail, List.filterMap_append, List.getElem?_append_left (by omega)] at hs
  rw [List.getLast?_eq_getElem?, hk]
  exact hs

end Trail

end Execution
end ByteTape
