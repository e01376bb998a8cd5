import ByteTape.Proofs.Machine.Jumps
import ByteTape.Proofs.Machine.Supervision

/-! The machine that scans at every jump and remembers nothing. Its histories are those
of the machine with a memo, seen without the memo. -/
namespace ByteTape
open ByteTape.Bracket

namespace Execution
variable {σ : Type}

def scanJump (x : Execution σ) (d : Direction) : Execution σ × Except Fault Unit :=
  match scan x.program x.ip d with
  | .ok target => ({ x with ip := target }, .ok ())
  | .error e => (x, .error (.error e))

def performScanning [ByteOutput σ] : Performer σ := fun i x =>
  match i.direction? with
  | some d => if x.calls d then x.scanJump d else (x, .ok ())
  | none => x.perform i

def withMemo (x : Execution σ) (m : JumpMemo) : Execution σ := { x with memo := m }

end Execution

def Progress.withMemo {σ : Type} (m : JumpMemo) : Progress σ → Progress σ
  | .running x => .running (x.withMemo m)
  | .ended x result => .ended (x.withMemo m) result

namespace Execution
variable {σ : Type} {x : Execution σ}

private theorem scanJump_of_partner {d : Direction} {j : Nat}
    (hb : x.program.get? x.ip = some d.bracket)
    (hp : Partner x.program x.ip j) : x.scanJump d = ({ x with ip := j }, .ok ()) := by
  simp [scanJump, (scan_eq_ok_iff_partner hb).mpr hp]

private theorem scanJump_of_unpaired {d : Direction} (hb : x.program.get? x.ip = some d.bracket)
    (hp : ∀ j, ¬ Partner x.program x.ip j) :
    x.scanJump d = (x, .error (.error (.unmatchedBracket x.ip d.side))) := by
  simp [scanJump, scan_of_unpaired hb hp]

variable [ByteOutput σ]

private theorem perform_withMemo {i : Instruction} (h : i.direction? = none) (x : Execution σ)
    (m : JumpMemo) : (x.withMemo m).perform i = ((x.perform i).1.withMemo m, (x.perform i).2) :=
  perform_supervised id id (fun _ => m) (f := id) (fun _ _ => rfl) ByteOutput.honest_id (.inl h) x

/-- One instruction is the same with a memo of matches and without any memo. -/
theorem performScanning_withMemo {i : Instruction} (hr : x.Remembers)
    (hi : x.program.get? x.ip = some i.symbol) (m : JumpMemo) :
    (x.withMemo m).performScanning i = ((x.perform i).1.withMemo m, (x.perform i).2) := by
  cases hd : i.direction? with
  | none => simpa only [performScanning, hd] using perform_withMemo hd x m
  | some d =>
    have hb : x.program.get? x.ip = some d.bracket := by
      rw [hi, Instruction.direction?_eq_some_iff.mp hd]
    have hcalls : (x.withMemo m).calls d = x.calls d := by cases d <;> rfl
    simp only [performScanning, hd, hcalls]
    rcases bracket_cases hr hi hd with ⟨hc, hx⟩ | ⟨hc, j, hp, hx⟩ | ⟨hc, hp, hx⟩
    · rw [hx, hc]
      rfl
    · rw [hx, hc, if_pos rfl, scanJump_of_partner (x := x.withMemo m) hb hp]
      rfl
    · rw [hx, hc, if_pos rfl, scanJump_of_unpaired (x := x.withMemo m) hb hp]
      rfl

omit [ByteOutput σ] in
private theorem framed_withMemo (m : JumpMemo) : Framed (σ := σ) (·.withMemo m) :=
  ⟨fun _ => rfl, fun _ => rfl, fun _ _ _ => rfl, fun _ => rfl, fun _ => rfl⟩

/-- The machine with a memo goes on as the one without. -/
theorem carries_withMemo (m : JumpMemo) :
    Carries (σ := σ) perform performScanning (·.Remembers) (·.withMemo m) where
  steady := steady_of_lasting Machine.lasting_remembers
  signal _ w := by cases w <;> rfl
  tick x h := by
    apply (framed_withMemo m).tickBy
    intro i hi
    refine ⟨rfl, fun _ => ⟨performScanning_withMemo h hi m, ?_⟩⟩
    intro y _
    exact (framed_withMemo m).record rfl (fun _ => rfl) i x.snapshot

private theorem drive_withMemo (hr : x.Remembers) (m : JumpMemo) (ws : List (Option Bool)) :
    (x.withMemo m).drive performScanning ws = (x.drive perform ws).withMemo m := by
  rw [(carries_withMemo m).drive hr]
  cases x.drive perform ws <;> rfl

private theorem conclude_withMemo (x : Execution σ) (m : JumpMemo) (result : Except Fault Unit) :
    (x.withMemo m).conclude result = ((x.conclude result).1.withMemo m, (x.conclude result).2) :=
  conclude_map (f := (·.withMemo m)) (fun _ => rfl) (fun _ => rfl) (fun _ => rfl)
    (fun _ _ => rfl) (fun _ _ => rfl) x result

end Execution

namespace Machine
variable {σ : Type} [ByteOutput σ] {m : Machine}

private theorem runBy_withMemo (hr : m.Remembers) (k : JumpMemo) (schedule : List (Option Bool))
    (input : Source) (output : σ) :
    { m with memo := k }.runBy Execution.performScanning schedule input output =
      (m.runBy Execution.perform schedule input output).withMemo k := by
  have hs : { m with memo := k }.start input output = (m.start input output).withMemo k := rfl
  have hd := Execution.drive_withMemo (x := m.start input output) ⟨hr.sound, hr.room⟩ k schedule
  unfold runBy
  rw [hs, hd]
  cases (m.start input output).drive Execution.perform schedule with
  | running x => rfl
  | ended x result =>
    simp only [Progress.withMemo]
    rw [Execution.conclude_withMemo]

private theorem reports_withMemo (hr : m.Remembers) (k : JumpMemo) (es : List (Event σ)) :
    reports Execution.performScanning es { m with memo := k } =
      (reports Execution.perform es m).map (·.withMemo k) := by
  induction es generalizing m with
  | nil => rfl
  | cons e es ih =>
    cases e with
    | flag value => exact ih (m := { m with cancel := some value }) ⟨hr.sound, hr.room⟩
    | tracer t => exact ih (m := { m with tracer := some t }) ⟨hr.sound, hr.room⟩
    | run schedule input output =>
      have hx := lasting_remembers.runBy hr schedule input output
      simp only [reports, runBy_withMemo hr]
      cases he : m.runBy Execution.perform schedule input output with
      | running x => rfl
      | ended x result =>
        rw [he] at hx
        simp only [Progress.withMemo, List.map_cons]
        congr 1
        exact ih hx

/-- The memo cannot be observed. In every history the machine that scans at every jump
reports what the machine with a memo reports, save that its own memo stays empty. -/
theorem reports_performScanning (p : Program) (c : Config) (es : List (Event σ)) :
    reports Execution.performScanning es (Machine.new p c) =
      (reports Execution.perform es (Machine.new p c)).map (·.withMemo (.empty p.size)) :=
  reports_withMemo (remembers_new p c) (.empty p.size) es

end Machine
end ByteTape
