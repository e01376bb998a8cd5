import ByteTape.Proofs.Machine.Comments
import ByteTape.Proofs.Machine.Safety
import ByteTape.Proofs.Machine.StepLimit

/-! Cancellation. Once its flag is set a run carries out no further instruction: it passes
comments, and stops before the next instruction or at the end of the program. Until then it
is the run without a flag. -/
namespace ByteTape

def Machine.unflagged (m : Machine) : Machine := { m with cancel := none }

namespace Execution
variable {σ : Type}

def unflagged (x : Execution σ) : Execution σ := { x with cancel := none }

theorem veto_eq_none_iff {x : Execution σ} :
    x.veto = none ↔ x.cancel ≠ some true ∧ ∀ L ∈ x.config.maxSteps, x.steps < L := by
  unfold veto
  split
  · simp_all
  · cases x.config.maxSteps with
    | none => simp_all
    | some L => simp_all

private theorem veto_of_flag {x : Execution σ} (h : x.cancel = some true) :
    x.veto = some .interrupted := by
  simp [veto, h]

variable [ByteOutput σ] {x y z : Execution σ} {k n : Nat}

/-- As long as a run goes on it is the run without a flag. -/
theorem running_unflagged (h : x.tick = .running y) : x.unflagged.tick = .running y.unflagged := by
  have hconfig : y.config = x.config := by
    have hlast := (Machine.lasting_config (σ := σ) x.config).tick x rfl
    rwa [h] at hlast
  have htick : (x.limitedTo x.config.maxSteps).tick =
      .running (y.limitedTo x.config.maxSteps) := by
    rw [tick_limitedTo, h]
    · rfl
    · intro i hi
      have hv := ((steps_of_running h).2 i hi).1
      exact ⟨hv, (veto_eq_none_iff.mp hv).2⟩
  rw [← hconfig] at htick
  nth_rewrite 1 [hconfig] at htick
  exact htick

private theorem ticks_unflagged (h : x.ticks k = .running y) :
    x.unflagged.ticks k = .running y.unflagged := by
  induction k generalizing x with
  | zero =>
    cases h
    rfl
  | succ k ih =>
    cases ht : x.tick with
    | running w =>
      rw [ticks_succ ht] at h
      rw [ticks_succ (running_unflagged ht)]
      exact ih h
    | ended w result => simp [ticks, ht] at h

private theorem conclude_unflagged (x : Execution σ) (result : Except Fault Unit) :
    x.unflagged.conclude result = ((x.conclude result).1.unflagged, (x.conclude result).2) :=
  conclude_map (f := unflagged) (fun _ => rfl) (fun _ => rfl) (fun _ => rfl)
    (fun _ _ => rfl) (fun _ _ => rfl) x result

private theorem tick_of_instruction {i : Instruction} (hi : x.program.get? x.ip = some i.symbol)
    (hv : x.veto = none) : x.tick = x.execute i := by
  simp [tick, hi, hv]

private theorem ticks_of_execute {i : Instruction} (hk : x.ticks k = .running y)
    (hi : y.program.get? y.ip = some i.symbol) (hv : y.veto = none) :
    x.ticks (k + 1) = y.execute i := by
  rw [ticks_add hk, ← tick_of_instruction hi hv]
  simp only [ticks]
  cases y.tick <;> rfl

private theorem exists_error_of_perform {i : Instruction} {f : Fault} (hr : x.Remembers)
    (h : x.pointer < x.tape.size) (hi : x.program.get? x.ip = some i.symbol)
    (hp : x.perform i = (y, .error f)) : ∃ e, f = .error e := by
  have hroom := roomy_perform hr h hi
  rw [hp] at hroom
  cases f with
  | error e => exact ⟨e, rfl⟩
  | outOfRange e => exact absurd rfl (hroom.inRange e)

private theorem execute_of_recorded {i : Instruction} (hp : x.perform i = (y, .ok ()))
    (hr : y.record i x.snapshot = (z, .ok ())) :
    x.execute i = .running { z with steps := x.steps + 1, ip := z.ip + 1 } ∧
    z.cancel = y.cancel := by
  have hsteps := (kept_perform i x).steps
  obtain ⟨t, hz⟩ := record_eq i x.snapshot y
  rw [hp] at hsteps
  rw [hr] at hz
  obtain rfl : z = _ := hz
  refine ⟨?_, rfl⟩
  simp only [execute, hp, hr]
  simp only at hsteps
  rw [hsteps]

private theorem tick_of_flag {i : Instruction} (hflag : x.cancel = some true)
    (hi : x.program.get? x.ip = some i.symbol) :
    x.tick = .ended x (.error (.error .interrupted)) := by
  simp [tick, hi, veto_of_flag hflag]

/-- A flag is not taken away, set or not. -/
private theorem attached_of_running (h : x.ticks k = .running y) (hx : x.cancel.isSome = true) :
    y.cancel.isSome = true := by
  induction k generalizing x with
  | zero =>
    cases h
    exact hx
  | succ k ih =>
    cases ht : x.tick with
    | running w =>
      rw [ticks_succ ht] at h
      refine ih h ?_
      rcases running_cases ht with ⟨_, _, _, rfl⟩ | ⟨i, z, t, _, _, hp, _, rfl⟩
      · exact hx
      · have hcancel := cancel_perform i x
        rw [hp] at hcancel
        show z.cancel.isSome = true
        rw [hcancel, Option.isSome_map]
        exact hx
    | ended w result => simp [ticks, ht] at h

private theorem flag_tick (h : x.cancel = some true) : x.tick.state.cancel = some true := by
  rw [← tickBy_perform]
  rcases x.tickBy_cases perform with ⟨_, he⟩ | ⟨_, _, _, he⟩ | ⟨_, _, _, _, he⟩ |
    ⟨i, _, hv, _⟩
  · rw [he]
    exact h
  · rw [he]
    exact h
  · rw [he]
    exact h
  · rw [veto_of_flag h] at hv
    cases hv

private theorem flag_ticks (h : x.cancel = some true) (n : Nat) :
    (x.ticks n).state.cancel = some true := by
  induction n generalizing x with
  | zero => exact h
  | succ n ih =>
    have ht := flag_tick h
    simp only [ticks]
    cases he : x.tick with
    | running y =>
      rw [he] at ht
      exact ih ht
    | ended y result =>
      rw [he] at ht
      exact ht

/-- A flag that is set at one moment of a run is set from then on. -/
theorem flag_lasts (h : (x.ticks k).state.cancel = some true) (hn : k ≤ n) :
    (x.ticks n).state.cancel = some true := by
  induction k generalizing x n with
  | zero => exact flag_ticks h n
  | succ k ih =>
    obtain ⟨n, rfl⟩ := Nat.exists_eq_succ_of_ne_zero (Nat.ne_zero_of_lt hn)
    simp only [ticks] at h ⊢
    cases he : x.tick with
    | running y =>
      rw [he] at h
      exact ih h (Nat.le_of_succ_le_succ hn)
    | ended y result =>
      rw [he] at h
      exact h

/-- With its flag set a run passes the comments that follow. It is interrupted at the next
instruction, or it comes to the end of the program. -/
theorem stops_of_flag (hflag : y.cancel = some true) (hip : y.ip ≤ y.program.size) :
    ∃ d, y.ticks d = .running { y with ip := y.ip + d } ∧
      (((∃ i : Instruction, y.program.get? (y.ip + d) = some i.symbol) ∧
        y.ticks (d + 1) = .ended { y with ip := y.ip + d } (.error (.error .interrupted))) ∨
      (y.ip + d = y.program.size ∧
        (∀ j (i : Instruction), y.ip ≤ j → y.program.get? j ≠ some i.symbol) ∧
        y.ticks (d + 1) = .ended { y with ip := y.ip + d } (.ok ()))) := by
  obtain ⟨d, hnext, hcomments⟩ := y.program.exists_next y.ip
  have hpass := ticks_of_comments hcomments
  refine ⟨d, hpass, ?_⟩
  rw [ticks_add hpass]
  rcases Program.not_isComment_iff.mp hnext with hend | ⟨i, hi⟩
  · obtain ⟨hplace, hnone⟩ := Program.end_of_comments hip hcomments hend
    have htick : ({ y with ip := y.ip + d } : Execution σ).tick = _ := tick_of_end hend
    exact .inr ⟨hplace, hnone, by simp [ticks, htick]⟩
  · have htick : ({ y with ip := y.ip + d } : Execution σ).tick = _ := tick_of_flag hflag hi
    exact .inl ⟨⟨i, hi⟩, by simp [ticks, htick]⟩

end Execution

namespace Machine
open Execution
variable {σ : Type} [ByteOutput σ]

/-- How a run ends in `x` whose flag was first set when it stood at `y`. No instruction is
carried out from there. The run is interrupted if there is one left, and then the run of the
machine `m` that has no flag comes to carry that one out; if not, it ends as that run does. -/
structure CutOff (m : Machine) (input : Source) (output : σ) (y x : Execution σ)
    (result : Except Fault Unit) : Prop where
  state : x = ({ y with ip := x.ip } : Execution σ).flushed
  stored : ∀ a : ByteOutput.Account σ, a.stored x.output = a.stored y.output
  flag : x.cancel = some true
  free : ∃ k, (m.start input output).ticks k = .running { y with ip := x.ip, cancel := none }
  interrupted : (∃ j, ∃ i : Instruction, y.ip ≤ j ∧ y.program.get? j = some i.symbol) →
    result = .error (.error .interrupted) ∧
    ∃ i : Instruction, y.program.get? x.ip = some i.symbol
  finished : (∀ j (i : Instruction), y.ip ≤ j → y.program.get? j ≠ some i.symbol) →
    x.ip = y.program.size ∧ result = (({ y with ip := x.ip } : Execution σ).conclude (.ok ())).2 ∧
    ∃ n, m.run n input output = some (x.unflagged, result)

private theorem exists_cutOff {m : Machine} {input : Source} {output : σ} {y : Execution σ}
    {k : Nat} (hk : (m.start input output).ticks k = .running y) (hflag : y.cancel = some true)
    (hip : y.ip ≤ y.program.size) :
    ∃ n x result, m.run n input output = some (x, result) ∧ x.steps = y.steps ∧
      CutOff m.unflagged input output y x result := by
  obtain ⟨d, hpass, hstop⟩ := stops_of_flag hflag hip
  have hreach : (m.start input output).ticks (k + d) = .running { y with ip := y.ip + d } := by
    rw [ticks_add hk, hpass]
  have hfree := ticks_unflagged hreach
  rcases hstop with ⟨hi, hend⟩ | ⟨hplace, hnone, hend⟩
  · refine ⟨k + (d + 1), _, _, run_eq_some_iff.mpr ⟨_, _, (ticks_add hk).trans hend,
      conclude_error _ _⟩, rfl, rfl, fun a => a.flush _, hflag, ⟨k + d, hfree⟩,
      fun _ => ⟨rfl, hi⟩, ?_⟩
    intro hnone
    obtain ⟨i, hi⟩ := hi
    exact absurd hi (hnone _ i (Nat.le_add_right _ _))
  · let z : Execution σ := { y with ip := y.ip + d }
    have hstate : (z.conclude (.ok ())).1 = z.flushed :=
      congrArg Prod.fst (z.conclude_mapError (.ok ()))
    have hrun : (m.unflagged.start input output).ticks (k + d + 1) =
        .ended z.unflagged (.ok ()) := by
      have htick : z.unflagged.tick = _ := tick_of_end hplace.ge
      refine (ticks_add hfree).trans ?_
      simp only [ticks, htick, z]
    refine ⟨k + (d + 1), _, _, run_eq_some_iff.mpr ⟨_, _, (ticks_add hk).trans hend,
      Prod.ext hstate rfl⟩, rfl, rfl, fun a => a.flush _, hflag, ⟨k + d, hfree⟩, ?_, ?_⟩
    · intro hex
      obtain ⟨j, i, hj, hi⟩ := hex
      exact absurd hi (hnone j i hj)
    · intro _
      refine ⟨hplace, rfl, k + d + 1, run_eq_some_iff.mpr ⟨_, _, hrun, ?_⟩⟩
      rw [conclude_unflagged, hstate]
      rfl

private theorem run_of_failed {m : Machine} {input : Source} {output : σ} {y : Execution σ}
    {k : Nat} {e : RunError} (h : (m.start input output).ticks k = .ended y (.error (.error e))) :
    m.run k input output = some (y.flushed, .error (.error e)) :=
  run_eq_some_iff.mpr ⟨_, _, h, conclude_error y e⟩

private theorem cancel_of_run {m : Machine} {input : Source} {output : σ} {x : Execution σ}
    {n : Nat} {result : Except Fault Unit} (h : m.run n input output = some (x, result)) :
    x.cancel = ((m.start input output).ticks n).state.cancel := by
  obtain ⟨y, r, hy, hx⟩ := run_eq_some_iff.mp h
  obtain ⟨o, t, hstate⟩ := y.conclude_eq r
  rw [hx] at hstate
  obtain rfl : x = _ := hstate
  rw [hy]
  rfl

/-- A flag stops a run at the next instruction and nowhere else. If it is set before the run, no
instruction is carried out. An instruction sets it if a stream asks for that in a call, failed or
not. If the instruction fails, or its row, then this is what the run ends with. If not, the
instruction is recorded and counted, and once it has set the flag no further one is carried out. In
either case the last flushes are done, and no step limit matters. A flag that is set is not
cleared. -/
theorem flag_stops_run (p : Program) (c : Config) (es : List (Event σ)) (flag : Bool)
    (input : Source) (output : σ) :
    let m := (Machine.new p c).after es
    let watched : Machine := { m with cancel := some flag }
    let start := watched.start input output
    (flag = true → ∃ n x result, watched.run n input output = some (x, result) ∧ x.steps = 0 ∧
      CutOff m.unflagged input output start x result) ∧
    (∀ k z (i : Instruction), start.ticks k = .running z →
      z.program.get? z.ip = some i.symbol → z.veto = none →
      (z.perform i).1.cancel = some (z.rung i) ∧
      (∀ y f, z.perform i = (y, .error f) → ∃ e, f = .error e ∧
        watched.run (k + 1) input output = some (y.flushed, .error (.error e))) ∧
      (∀ y y' f, z.perform i = (y, .ok ()) → y.record i z.snapshot = (y', .error f) →
        ∃ e, f = .error e ∧
        watched.run (k + 1) input output = some (y'.flushed, .error (.error e))) ∧
      (∀ y y', z.perform i = (y, .ok ()) → y.record i z.snapshot = (y', .ok ()) →
        y.cancel = some true →
        ∃ n x result, watched.run n input output = some (x, result) ∧ x.steps = z.steps + 1 ∧
        CutOff m.unflagged input output { y' with steps := z.steps + 1, ip := y'.ip + 1 } x
          result)) ∧
    (∀ k n, k ≤ n → (start.ticks k).state.cancel = some true →
      (start.ticks n).state.cancel = some true) ∧
    (∀ n x result, watched.run n input output = some (x, result) →
      x.cancel = (start.ticks n).state.cancel) := by
  intro m watched start
  have hm : m.Remembers ∧ m.Inside p :=
    (lasting_inside p).after ⟨remembers_new p c, inside_new p c⟩ es
  have hwatched := (lasting_inside (σ := σ) p).cancel m (some flag) hm
  have hstart : start.Remembers ∧ start.Inside p := (lasting_inside (σ := σ) p).rewind _ hwatched
  have hinside {k : Nat} {z : Execution σ} (hz : start.ticks k = .running z) :
      z.Remembers ∧ z.Inside p := by
    have hdrive := (lasting_inside p).drive hstart (List.replicate k none)
    rw [drive_replicate, hz] at hdrive
    exact hdrive
  refine ⟨?_, ?_, fun k n hn h => flag_lasts h hn, fun n x result => cancel_of_run⟩
  · intro hflag
    exact exists_cutOff (m := watched) (k := 0) rfl (congrArg some hflag) (Nat.zero_le _)
  · intro k z i hz hi hv
    obtain ⟨hr, hin⟩ := hinside hz
    have hticks := ticks_of_execute hz hi hv
    obtain ⟨b, hb⟩ := Option.isSome_iff_exists.mp (attached_of_running hz rfl)
    have hunset : b ≠ true := fun h => (veto_eq_none_iff.mp hv).1 (hb.trans (congrArg some h))
    refine ⟨?_, ?_, ?_, ?_⟩
    · rw [cancel_perform, hb, Bool.eq_false_of_not_eq_true hunset]
      rfl
    · intro y f hy
      obtain ⟨e, rfl⟩ := exists_error_of_perform hr hin.pointer hi hy
      exact ⟨e, rfl, run_of_failed (hticks.trans (by simp only [execute, hy]))⟩
    · intro y y' f hy hrecord
      obtain ⟨_, _, _, _, rfl⟩ := record_error hrecord
      exact ⟨_, rfl, run_of_failed (hticks.trans (by simp only [execute, hy, hrecord]))⟩
    · intro y y' hy hrecord hset
      obtain ⟨hrunning, hcancel⟩ := execute_of_recorded hy hrecord
      have htick : z.tick = z.execute i := tick_of_instruction hi hv
      have hlast := (inside_of_running hr hin (htick.trans hrunning)).1
      exact exists_cutOff (m := watched) (hticks.trans hrunning) (hcancel.trans hset)
        (hlast.program ▸ hlast.ip)

/-- The output asks for cancellation when its first byte is written, by the second instruction
of two that the step limit allows. The run is interrupted, with the third one ahead. A flag that
is set before the run leaves even the first one ahead. If the flag is set by a write that is
refused, or by a read that fails, then this failure is the result. If it is set by a read at the
end of input which the policy lets pass, the run is interrupted behind it. -/
theorem interrupted_or_failed :
    ∃ m : Machine, m = Machine.new (.ofList ['+', '.', ' ', '+']) { maxSteps := some 2 } ∧
      (∃ n x, { m with cancel := some false }.run n (.ofBytes [])
          { Sink.unlimited with alarm := some 1 } = some (x, .error (.error .interrupted)) ∧
        x.steps = 2 ∧ x.cancel = some true ∧ Sink.account.stored x.output = [1]) ∧
      (∃ n x, { m with cancel := some true }.run n (.ofBytes []) Sink.unlimited =
          some (x, .error (.error .interrupted)) ∧ x.steps = 0) ∧
      (∃ n x, { Machine.new (.ofList ['.', '.']) {} with cancel := some false }.run n (.ofBytes [])
          (⟨{ Sink.full with capacity := some 1 }, 0, 2⟩ : Belled Sink) =
            some (x, .error (.error (.stream 1 .noSpaceLeft))) ∧
        x.cancel = some true ∧ Sink.account.belled.stored x.output = [0]) ∧
      (∃ n x, { Machine.new (.ofList [',']) {} with cancel := some false }.run n
          { Source.ofItems [.failure .isADirectory] with bell := some 1 } Sink.unlimited =
            some (x, .error (.error (.stream 0 .isADirectory))) ∧ x.cancel = some true) ∧
      (∃ n x, { Machine.new (.ofList [',', '+']) { eof := .zero } with cancel := some false }.run n
          { Source.ofBytes [] with bell := some 1 } Sink.unlimited =
            some (x, .error (.error .interrupted)) ∧ x.steps = 1) := by
  refine ⟨_, rfl, ?_, ?_, ?_, ?_, ?_⟩
  · have h := (flag_stops_run (.ofList ['+', '.', ' ', '+']) { maxSteps := some 2 } [] false
      (.ofBytes []) { Sink.unlimited with alarm := some 1 }).2.1 1 _ .write rfl rfl rfl
    obtain ⟨n, x, result, hrun, hsteps, hcut⟩ := h.2.2.2 _ _ rfl rfl rfl
    obtain ⟨rfl, _⟩ := hcut.interrupted ⟨3, .increment, by decide, rfl⟩
    exact ⟨n, x, hrun, hsteps, hcut.flag, hcut.stored Sink.account⟩
  · obtain ⟨n, x, result, hrun, hsteps, hcut⟩ :=
      (flag_stops_run (.ofList ['+', '.', ' ', '+']) { maxSteps := some 2 } [] true
        (.ofBytes []) Sink.unlimited).1 rfl
    obtain ⟨rfl, _⟩ := hcut.interrupted ⟨0, .increment, le_rfl, rfl⟩
    exact ⟨n, x, hrun, hsteps⟩
  · have h := (flag_stops_run (.ofList ['.', '.']) {} [] false (.ofBytes [])
      (⟨{ Sink.full with capacity := some 1 }, 0, 2⟩ : Belled Sink)).2.1 1 _ .write rfl rfl rfl
    obtain ⟨_, he, hrun⟩ := h.2.1 _ _ rfl
    cases he
    exact ⟨_, _, hrun, rfl, rfl⟩
  · have h := (flag_stops_run (.ofList [',']) {} [] false
      { Source.ofItems [.failure .isADirectory] with bell := some 1 } Sink.unlimited).2.1 0 _ .read
        rfl rfl rfl
    obtain ⟨_, he, hrun⟩ := h.2.1 _ _ rfl
    cases he
    exact ⟨_, _, hrun, rfl⟩
  · have h := (flag_stops_run (.ofList [',', '+']) { eof := .zero } [] false
      { Source.ofBytes [] with bell := some 1 } Sink.unlimited).2.1 0 _ .read rfl rfl rfl
    obtain ⟨n, x, result, hrun, hsteps, hcut⟩ := h.2.2.2 _ _ rfl rfl rfl
    obtain ⟨rfl, _⟩ := hcut.interrupted ⟨1, .increment, le_rfl, rfl⟩
    exact ⟨n, x, hrun, hsteps⟩

end Machine
end ByteTape
