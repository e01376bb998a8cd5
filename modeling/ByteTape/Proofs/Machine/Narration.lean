import ByteTape.Proofs.Machine.Jumps
import ByteTape.Proofs.Machine.Strides
import ByteTape.Proofs.Machine.Untraced
import Mathlib.Data.List.Infix

/-! The table of a history, row by row. It tells of each executed instruction what the run has done,
and of nothing else. -/
namespace ByteTape

/-- What a row says of an instruction that met the state `before`, left this pointer and this cell,
and jumped to `target` if to anywhere. -/
def Instruction.narration (i : Instruction) (before : Snapshot) (pointer : Nat) (cell : UInt8)
    (target : Option Nat) : String :=
  match i, target with
  | .right, _ | .left, _ => s!"Moved pointer head to index {pointer}"
  | .increment, _ => s!"Increment cell[{before.pointer}] from {before.cell} to {cell}"
  | .decrement, _ => s!"Decrement cell[{before.pointer}] from {before.cell} to {cell}"
  | .write, _ => s!"Output byte {cell}"
  | .read, _ => s!"Read byte -> {cell}"
  | .loopOpen, none => "Enter loop (cell != 0)"
  | .loopOpen, some j => s!"Cell is 0; jump forward to matching ']' at IP {j}"
  | .loopClose, none => "Exit loop (cell is 0)"
  | .loopClose, some j => s!"Cell != 0; jump back to matching '[' at IP {j}"

def mentions (text word : String) : Prop := word.toList <:+: text.toList

private theorem mentions_append {text word : String} (h : mentions text word) (rest : String) :
    mentions (text ++ rest) word := by
  unfold mentions
  rw [String.toList_append]
  exact h.trans (List.prefix_append _ _).isInfix

/-- The row of a bracket tells of a jump if and only if it is told where to. -/
theorem mentions_jump_iff {i : Instruction} {d : Direction} (hd : i.direction? = some d)
    (before : Snapshot) (pointer : Nat) (cell : UInt8) (target : Option Nat) :
    mentions (i.narration before pointer cell target) "jump" ↔ target.isSome = true := by
  have hforward : mentions "Cell is 0; jump forward to matching ']' at IP " "jump" := by
    unfold mentions
    decide
  have hbackward : mentions "Cell != 0; jump back to matching '[' at IP " "jump" := by
    unfold mentions
    decide
  have henter : ¬ mentions "Enter loop (cell != 0)" "jump" := by
    unfold mentions
    decide
  have hexit : ¬ mentions "Exit loop (cell is 0)" "jump" := by
    unfold mentions
    decide
  cases i <;> cases hd
  · cases target with
    | none => exact ⟨fun h => absurd h henter, fun h => by cases h⟩
    | some j => exact ⟨fun _ => rfl, fun _ => mentions_append hforward _⟩
  · cases target with
    | none => exact ⟨fun h => absurd h hexit, fun h => by cases h⟩
    | some j => exact ⟨fun _ => rfl, fun _ => mentions_append hbackward _⟩

namespace Execution
variable {σ : Type} {x y : Execution σ} {i : Instruction}

/-- The partner that a bracket here jumps to, if its test calls for a jump. -/
def target? (x : Execution σ) (i : Instruction) : Option Nat :=
  i.direction?.bind fun d =>
    if x.calls d then (Bracket.scan x.program x.ip d).toOption else none

variable [ByteOutput σ]

/-- Where an instruction leads. -/
theorem landing_of_perform (hr : x.Remembers) (hi : x.program.get? x.ip = some i.symbol)
    (hp : x.perform i = (y, .ok ())) : y.ip = (x.target? i).getD x.ip ∧
      (∀ d, i.direction? = some d → (x.target? i).isSome = x.calls d) ∧ x.target? i ≠ some x.ip := by
  cases hdir : i.direction? with
  | none =>
    have hstill := still_perform hdir x
    rw [hp] at hstill
    have htarget : x.target? i = none := by simp [target?, hdir]
    rw [htarget]
    exact ⟨hstill.ip, by simp, by simp⟩
  | some d =>
    rcases bracket_cases hr hi hdir with ⟨hc, hx⟩ | ⟨hc, j, hpart, hx⟩ | ⟨_, _, hx⟩
    · obtain ⟨rfl, _⟩ := Prod.mk.inj (hp.symm.trans hx)
      have htarget : y.target? i = none := by simp [target?, hdir, hc]
      rw [htarget]
      exact ⟨rfl, by simp [hc], by simp⟩
    · obtain ⟨rfl, _⟩ := Prod.mk.inj (hp.symm.trans hx)
      have hb : x.program.get? x.ip = some d.bracket := by
        rw [hi, Instruction.direction?_eq_some_iff.mp hdir]
      have htarget : x.target? i = some j := by
        simp [target?, hdir, hc, (Bracket.scan_eq_ok_iff_partner hb).mpr hpart, Except.toOption]
      rw [htarget]
      exact ⟨rfl, by simp [hc], by simpa using hpart.ne.symm⟩
    · rw [hp] at hx
      cases hx

/-- What the row of an instruction says. A jump can be told from the position after it, since no
bracket is its own partner. -/
private theorem action_of_perform (hr : x.Remembers) (hi : x.program.get? x.ip = some i.symbol)
    (hp : x.perform i = (y, .ok ())) : y.action i x.snapshot =
      i.narration x.snapshot y.pointer y.current (x.target? i) := by
  obtain ⟨hlanding, _, hne⟩ := landing_of_perform hr hi hp
  cases i with
  | loopOpen | loopClose =>
    cases htarget : x.target? _ with
    | none =>
      rw [htarget] at hlanding
      exact if_pos hlanding
    | some j =>
      rw [htarget] at hlanding hne
      obtain rfl : y.ip = j := hlanding
      exact if_neg fun h => hne (congrArg some h)
  | _ => rfl

end Execution

namespace Stride
variable {σ : Type} [ByteOutput σ] {s s' : Stride σ} {p : Program} {k : Nat}

/-- What the row number `k` of a run says is what the instruction number `k` has done. -/
structure Told (p : Program) (k : Nat) (s : Stride σ) : Prop where
  program : s.before.program = p
  due : s.before.due? = some s.instruction
  performed : s.before.perform s.instruction = (s.after, .ok ())
  symbol : p.get? s.before.ip = some s.row.symbol
  step : s.row.step = k
  ip : s.row.ip = s.before.ip
  pointer : s.row.pointer = s.before.pointer
  cell : s.row.cell = s.before.current
  action : s.row.action = s.instruction.narration s.before.snapshot s.after.pointer
    s.after.current (s.before.target? s.instruction)
  /-- A bracket jumps if its test calls for it, and then its row says so. -/
  jump : ∀ d, s.instruction.direction? = some d →
    (s.before.target? s.instruction).isSome = s.before.calls d ∧
    (mentions s.row.action "jump" ↔ s.before.calls d = true)

/-- The row of an instruction stands behind that of `s`, with nothing but comments between. -/
structure Follows (p : Program) (s s' : Stride σ) : Prop where
  behind : (s.before.target? s.instruction).getD s.row.ip < s'.row.ip
  comments : ∀ j, (s.before.target? s.instruction).getD s.row.ip < j → j < s'.row.ip →
    p.isComment j = true

private theorem told_of_executed (hr : s.before.Remembers) (hp : s.before.program = p)
    (hk : s.before.steps = k) (hd : s.before.due? = some s.instruction)
    (hperform : s.before.perform s.instruction = (s.after, .ok ())) : Told p k s := by
  obtain ⟨_, hi⟩ := Execution.due?_eq_some_iff.mp hd
  obtain ⟨_, hjump, _⟩ := Execution.landing_of_perform hr hi hperform
  have haction := Execution.action_of_perform hr hi hperform
  have hsteps := (Execution.kept_perform s.instruction s.before).steps
  rw [hperform] at hsteps
  refine ⟨hp, hd, hperform, hp ▸ hi, hsteps.trans hk, rfl, rfl, rfl, haction, ?_⟩
  intro d hdir
  refine ⟨hjump d hdir, ?_⟩
  rw [← hjump d hdir, show s.row.action = _ from haction]
  exact mentions_jump_iff hdir _ _ _ _

end Stride

namespace Machine
open Execution
variable {σ : Type} [ByteOutput σ] {m : Machine} {p : Program}

/-- A machine for the program `p` that remembers no wrong pair and has no tracer, or one that never
fails. -/
structure Sound (p : Program) (m : Machine) : Prop where
  program : m.program = p
  remembers : m.Remembers
  quiet : m.Quiet

private theorem Sound.runBy (h : m.Sound p) (ws : List (Option Bool)) (input : Source)
    (output : σ) : (m.runBy perform ws input output).state.Sound p where
  program := (lasting_program p).runBy h.program ws input output
  remembers := lasting_remembers.runBy h.remembers ws input output
  quiet := (gained_runBy h.quiet ws input output).quiet

private theorem Sound.told (h : m.Sound p) (ws : List (Option Bool)) (input : Source) (output : σ)
    {k : Nat} {s : Stride σ}
    (hs : (((m.start input output).trail perform ws).filterMap stride?)[k]? = some s) :
    s.Told p k ∧ ∀ s', (((m.start input output).trail perform ws).filterMap stride?)[k + 1]? =
      some s' → s.Follows p s' := by
  have hstart : (m.start input output).Remembers := ⟨h.remembers.sound, h.remembers.room⟩
  have hremembers := (steady_of_lasting (σ := σ) lasting_remembers).trail hstart ws
  have hprogram := (steady_of_lasting (σ := σ) (lasting_program p)).trail
    (x := m.start input output) h.program ws
  obtain ⟨hmem, hsteps, hd, hperform⟩ :=
    exists_moment_of_stride (x := m.start input output) h.quiet rfl hs
  have hr := hremembers s.before hmem
  refine ⟨Stride.told_of_executed hr (hprogram _ hmem) hsteps hd hperform, ?_⟩
  intro s' hs'
  obtain ⟨hmem', _⟩ := exists_moment_of_stride (x := m.start input output) h.quiet rfl hs'
  obtain ⟨hlt, hcomments⟩ := comments_between hs hs'
  obtain ⟨hlanding, _⟩ := landing_of_perform hr (due?_eq_some_iff.mp hd).2 hperform
  rw [hprogram _ hmem'] at hcomments
  rw [hlanding] at hlt hcomments
  exact ⟨hlt, hcomments⟩

def strides : List (Event σ) → Machine → List (List (Stride σ))
  | [], _ => []
  | .flag value :: es, m => strides es { m with cancel := some value }
  | .tracer t :: es, m => strides es { m with tracer := some t }
  | .run schedule input output :: es, m =>
    ((m.start input output).trail perform schedule).filterMap stride? ::
      match m.runBy perform schedule input output with
      | .running _ => []
      | .ended x _ => strides es x.toMachine

end Machine
end ByteTape
