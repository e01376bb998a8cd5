import ByteTape.Proofs.Machine.StepLimit

/-! Runs that fail have not done half of an instruction: they end in the state in which a
run stopped just before the failing instruction ends. -/
namespace ByteTape

namespace Execution
variable {σ : Type} [ByteOutput σ] {x y : Execution σ}

/-- A tick that fails, other than by a row, stands before an instruction and has left what
can be looked at and what was stored as it was. -/
private theorem failed_cases {e : RunError} (hrow : x.unrecorded = false)
    (h : x.tick = .ended y (.error (.error e))) :
    (∃ i : Instruction, x.program.get? x.ip = some i.symbol) ∧ y.LooksLike x.toMachine ∧
      (∀ a : ByteOutput.Account σ, a.stored y.output = a.stored x.output) ∧
      ∀ k, e.ip? = some k → k = x.ip := by
  rcases ended_cases h with ⟨_, _, he⟩ | ⟨i, e', hi, hv, rfl, he⟩ | ⟨i, f, hi, _, hp, he⟩ |
    ⟨i, z, t, f, hi, hv, hp, hr, _, _⟩
  · cases he
  · cases he
    refine ⟨⟨i, hi⟩, .refl _, fun _ => rfl, ?_⟩
    intro k hk
    rw [ip?_of_veto hv] at hk
    cases hk
  · cases he
    obtain ⟨hlook, hip⟩ := perform_error hp
    refine ⟨⟨i, hi⟩, hlook, fun a => stored_perform_error a hp, ?_⟩
    intro k hk
    rw [hip] at hk
    exact (Option.some.inj hk).symm
  · rw [unrecorded_of_record_error hi hv hp hr] at hrow
    cases hrow

end Execution

namespace Machine
open Execution
variable {σ : Type} [ByteOutput σ]

/-- The limit that stops a run just before any of its instructions is the number of those
counted so far. -/
private theorem run_stops_at {m : Machine} {input : Source} {output : σ}
    {ws : List (Option Bool)} {z : Execution σ} {i : Instruction}
    (hz : z ∈ (m.start input output).trail perform ws)
    (hi : z.program.get? z.ip = some i.symbol) :
    ∃ n x, (m.limitedTo (some z.steps)).run n input output =
        some (x, .error (.error (.stepLimitExceeded z.steps))) ∧
      x.LooksLike z.toMachine ∧
      ∀ a : ByteOutput.Account σ, a.stored x.output = a.stored z.output := by
  obtain ⟨n, hn⟩ := reaches_limitedTo (l := some z.steps) hz (by simp)
  have hend : ((m.start input output).limitedTo (some z.steps)).ticks (n + 1) =
      .ended (z.limitedTo (some z.steps)) (.error (.error (.stepLimitExceeded z.steps))) := by
    rw [ticks_add hn]
    simp [ticks, tick_at_limit hi rfl]
  let stop : Except Fault Unit := .error (.error (.stepLimitExceeded z.steps))
  refine ⟨n + 1, ((z.limitedTo (some z.steps)).conclude stop).1,
    run_eq_some_iff.mpr ⟨_, _, hend, rfl⟩, ?_, fun a => stored_conclude a _ stop⟩
  exact (looksLike_conclude _ stop).trans ⟨rfl, rfl, rfl, rfl, rfl⟩

/-- A failing instruction is atomic. A fresh machine whose run fails, but not by a row or by
the last flushes, ends with the tape, pointer, place, count, memo and stored bytes of a fresh
machine that is stopped by its step limit just before the failing instruction, and an error
that names a place names the one where the machine stands. -/
theorem failure_changes_nothing (p : Program) (c : Config)
    (flag : Option Bool) (t : Option Tracer) (ws : List (Option Bool)) (input : Source)
    (output : σ) (x : Execution σ) (e : RunError)
    (hrun : { Machine.new p c with cancel := flag, tracer := t }.runBy perform ws input output =
      .ended x (.error (.error e)))
    (hflush : ∀ y, ({ Machine.new p c with cancel := flag, tracer := t }.start input output).drive
      perform ws ≠ .ended y (.ok ()))
    (hrow : ∀ z ∈ ({ Machine.new p c with cancel := flag, tracer := t }.start input output).trail
      perform ws, z.unrecorded = false) :
    (∃ n x', { Machine.new p { c with maxSteps := some x.steps } with tracer := t }.run n input
        output = some (x', .error (.error (.stepLimitExceeded x.steps))) ∧
      x.LooksLike x'.toMachine ∧
      ∀ a : ByteOutput.Account σ, a.stored x.output = a.stored x'.output) ∧
    ∀ k, e.ip? = some k → k = x.ip := by
  unfold runBy at hrun
  cases hd : ({ Machine.new p c with cancel := flag, tracer := t }.start input output).drive
      perform ws with
  | running y =>
    rw [hd] at hrun
    cases hrun
  | ended y result =>
    rw [hd] at hrun
    obtain ⟨rfl, hresult⟩ := Progress.ended.inj hrun
    have hfailed : result = .error (.error e) := by
      rcases y.result_conclude result with he | ⟨rfl, _⟩
      · exact he.symm.trans hresult
      · exact absurd hd (hflush y)
    subst hfailed
    obtain ⟨w, hlast, hw⟩ := exists_last_of_ended hd
    have hmem := List.mem_of_getLast? hlast
    obtain ⟨⟨i, hi⟩, hlook, hstored, hip⟩ := failed_cases (hrow w hmem) hw
    have hlook := (y.looksLike_conclude (.error (.error e))).trans hlook
    obtain ⟨n, x', hx', hlook', hstored'⟩ := run_stops_at hmem hi
    refine ⟨⟨n, x', ?_, hlook.trans hlook'.symm, ?_⟩, ?_⟩
    · rw [hlook.steps]
      exact hx'
    · intro a
      rw [stored_conclude, hstored, hstored']
    · rw [hlook.ip]
      exact hip

/-- The end of input in a loop, after a byte of output and under an attached flag. -/
theorem input_exhausted_in_loop :
    ∃ x, { Machine.new (.ofList ['+', '.', '[', ',', ']']) {} with cancel := some false }.runBy
        perform (List.replicate 5 none) (.ofBytes []) Sink.unlimited =
          .ended x (.error (.error (.inputExhausted 3))) ∧
      x.steps = 3 ∧ x.ip = 3 ∧ x.output.stored = #[1] ∧
      ∃ n x', (Machine.new (.ofList ['+', '.', '[', ',', ']']) { maxSteps := some 3 }).run n
          (.ofBytes []) Sink.unlimited = some (x', .error (.error (.stepLimitExceeded 3))) ∧
        x.LooksLike x'.toMachine ∧ Sink.account.stored x.output = Sink.account.stored x'.output := by
  have h := failure_changes_nothing (.ofList ['+', '.', '[', ',', ']']) {}
    (some false) none (List.replicate 5 none) (.ofBytes []) Sink.unlimited _
    (.inputExhausted 3) rfl (fun y hy => by cases hy) (by decide)
  obtain ⟨⟨n, x', hx', hlook, hstored⟩, hip⟩ := h
  exact ⟨_, rfl, rfl, (hip 3 rfl).symm, rfl, n, x', hx', hlook, hstored Sink.account⟩

end Machine
end ByteTape
