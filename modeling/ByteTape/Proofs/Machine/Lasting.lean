import ByteTape.Proofs.Machine.History

/-! Properties of a machine that no tick and nothing between its ticks can end. They
hold through every history, at each moment of it. -/
namespace ByteTape
namespace Machine

/-- A tick keeps the property, and so do a rewind and any change of the cancel flag or of
the tracer. -/
structure Lasting (σ : Type) [ByteOutput σ] (P : Machine → Prop) : Prop where
  cancel : ∀ (m : Machine) c, P m → P { m with cancel := c }
  tracer : ∀ (m : Machine) t, P m → P { m with tracer := t }
  rewind : ∀ m : Machine, P m → P m.rewind
  tick : ∀ x : Execution σ, P x.toMachine → P x.tick.state.toMachine

end Machine

namespace Execution
variable {σ : Type} [ByteOutput σ]

/-- The last flushes touch nothing but the output and the tracer. -/
theorem conclude_eq (x : Execution σ) (result : Except Fault Unit) :
    ∃ output t, (x.conclude result).1 = { x with output := output, tracer := t } := by
  unfold conclude
  split
  · exact ⟨x.output, x.tracer, rfl⟩
  · dsimp only
    unfold flushTracer
    split
    · exact ⟨_, x.tracer, rfl⟩
    · exact ⟨_, _, rfl⟩

def flushed (x : Execution σ) : Execution σ :=
  { x with output := (ByteOutput.flush x.output).1, tracer := x.tracer.map fun t => t.flush.1 }

omit [ByteOutput σ] in
private theorem settle_eq (ip : Nat) (result : Except RunError Unit)
    (flushed traced : Except StreamError Unit) :
    settle ip (result.mapError .error) flushed traced =
      (result *> (flushed *> traced).mapError (.stream ip)).mapError .error := by
  rcases result with e | _
  · rfl
  · rcases flushed with e | _
    · rfl
    · rcases traced with e | _ <;> rfl

/-- The last flushes are all done, and the first failure among the run and them is the result. -/
theorem conclude_mapError (x : Execution σ) (result : Except RunError Unit) :
    x.conclude (result.mapError .error) = (x.flushed,
      (result *> ((ByteOutput.flush x.output).2 *>
        (x.tracer.map Tracer.flush).elim (.ok ()) Prod.snd).mapError (.stream x.ip)).mapError
          .error) := by
  rw [← settle_eq]
  obtain ⟨⟨p, c, t, i, j, k, memo, cancel, tracer⟩, input, output⟩ := x
  rcases result with e | _ <;> cases tracer <;> rfl

theorem conclude_error (x : Execution σ) (e : RunError) :
    x.conclude (.error (.error e)) = (x.flushed, .error (.error e)) :=
  x.conclude_mapError (.error e)

end Execution

namespace Machine
variable {σ : Type} [ByteOutput σ]

/-- A run comes to the state of its ticks, but for the last flushes. -/
theorem state_runBy (m : Machine) (act : Performer σ) (schedule : List (Option Bool))
    (input : Source) (output : σ) :
    ∃ o t, (m.runBy act schedule input output).state =
      { ((m.start input output).drive act schedule).state with output := o, tracer := t } := by
  unfold runBy
  cases (m.start input output).drive act schedule with
  | running x => exact ⟨x.output, x.tracer, rfl⟩
  | ended x result => exact x.conclude_eq result

theorem runBy_eq_ended_iff {m : Machine} {act : Performer σ} {ws : List (Option Bool)}
    {input : Source} {output : σ} {x : Execution σ} {result : Except Fault Unit} :
    m.runBy act ws input output = .ended x result ↔
      ∃ y r, (m.start input output).drive act ws = .ended y r ∧ y.conclude r = (x, result) := by
  unfold runBy
  cases (m.start input output).drive act ws with
  | running y => simp
  | ended y r => simp [Prod.ext_iff]

namespace Lasting
variable {P : Machine → Prop} (hl : Lasting σ P)
include hl

theorem signal {x : Execution σ} (h : P x.toMachine) (w : Option Bool) :
    P (x.signal w).toMachine := by
  cases w with
  | none => exact h
  | some value => exact hl.cancel x.toMachine _ h

theorem drive {x : Execution σ} (h : P x.toMachine) (ws : List (Option Bool)) :
    P (x.drive Execution.perform ws).state.toMachine := by
  induction ws generalizing x with
  | nil => exact h
  | cons w ws ih =>
    have ht := hl.tick _ (hl.signal h w)
    simp only [Execution.drive, Execution.tickBy_perform]
    cases he : (x.signal w).tick with
    | running y =>
      rw [he] at ht
      exact ih ht
    | ended y result =>
      rw [he] at ht
      exact ht

theorem runBy {m : Machine} (h : P m) (ws : List (Option Bool)) (input : Source) (output : σ) :
    P (m.runBy Execution.perform ws input output).state.toMachine := by
  obtain ⟨o, t, he⟩ := m.state_runBy Execution.perform ws input output
  rw [he]
  exact hl.tracer _ t (hl.drive (x := m.start input output) (hl.rewind m h) ws)

theorem after {m : Machine} (h : P m) (es : List (Event σ)) : P (m.after es) := by
  induction es generalizing m with
  | nil => exact h
  | cons e es ih =>
    cases e with
    | flag value => exact ih (hl.cancel m _ h)
    | tracer t => exact ih (hl.tracer m _ h)
    | run schedule input output =>
      have hr := hl.runBy h schedule input output
      simp only [Machine.after]
      cases he : m.runBy Execution.perform schedule input output with
      | running x =>
        rw [he] at hr
        exact hr
      | ended x result =>
        rw [he] at hr
        exact ih hr

end Lasting

private theorem fixed_tick (x : Execution σ) :
    x.tick.state.program = x.program ∧ x.tick.state.config = x.config := by
  rw [← Execution.tickBy_perform]
  rcases x.tickBy_cases Execution.perform with ⟨_, he⟩ | ⟨_, _, _, he⟩ | ⟨_, _, _, _, he⟩ |
    ⟨i, _, _, he⟩
  · rw [he]
    exact ⟨rfl, rfl⟩
  · rw [he]
    exact ⟨rfl, rfl⟩
  · rw [he]
    exact ⟨rfl, rfl⟩
  · obtain ⟨t, n, k, hx⟩ := x.state_executeBy Execution.perform i
    have hkept := Execution.kept_perform i x
    rw [he, hx]
    exact ⟨hkept.program, hkept.config⟩

/-- The program is the same for good. -/
theorem lasting_program (p : Program) : Lasting σ fun m => m.program = p where
  cancel _ _ h := h
  tracer _ _ h := h
  rewind _ h := h
  tick x h := (fixed_tick x).1.trans h

/-- The configuration is the same for good. -/
theorem lasting_config (c : Config) : Lasting σ fun m => m.config = c where
  cancel _ _ h := h
  tracer _ _ h := h
  rewind _ h := h
  tick x h := (fixed_tick x).2.trans h

end Machine
end ByteTape
