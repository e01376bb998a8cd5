import ByteTape.Proofs.Machine.Remembered
import ByteTape.Proofs.Structured.Simulation

/-! Whole runs and the structured reading of their programs agree. -/
namespace ByteTape

namespace Execution
variable {σ : Type} [ByteOutput σ] {u : ByteOutput.Unfailing σ} {x z : Execution σ}
  {p : Program} {eof : EofPolicy} {s t : Store}

private theorem runs_of_ended {n : Nat} {result : Except Fault Unit} (hx : x.Stands p eof u 0 s)
    (hn : x.ticks n = .ended z result) : z.Plain u ∧
      ∃ r : Except RunError Unit, Runs eof p.structured s (z.store u) r ∧
        result = r.mapError .error := by
  rcases explained_of_ticks p.spans_structured hx hn with ⟨e, hr, rfl, hz⟩ |
    ⟨m, _, t, y, hr, hy, hm⟩
  · exact ⟨hz, .error e, hr, rfl⟩
  · obtain ⟨rfl, rfl⟩ := ticks_of_ended hy.finish hm
    rw [hy.store]
    exact ⟨hy.plain, .ok (), hr, rfl⟩

/-- A machine that comes to the end of its program ends there at its next tick. -/
theorem ended_of_follows {r : Except RunError Unit} (hf : x.Follows p eof u p.size t r) :
    ∃ n z, x.ticks n = .ended z (r.mapError .error) ∧ z.Plain u ∧ z.store u = t := by
  rcases r with e | _
  · exact hf
  · obtain ⟨n, y, hn, hy⟩ := hf
    refine ⟨n + 1, y, ?_, hy.plain, hy.store⟩
    rw [ticks_add hn]
    simp [ticks, hy.finish, Except.mapError]

private theorem ended_of_runs {r : Except RunError Unit} (hx : x.Stands p eof u 0 s)
    (hr : Runs eof p.structured s t r) :
    ∃ n z, x.ticks n = .ended z (r.mapError .error) ∧ z.Plain u ∧ z.store u = t :=
  ended_of_follows (follows_of_runs hr p.spans_structured hx)

/-- The last flushes of a plain run neither fail nor show. -/
theorem conclude_of_plain (hz : z.Plain u) (r : Except RunError Unit) :
    ∃ w, z.conclude (r.mapError .error) = (w, r.mapError .error) ∧ w.store u = z.store u := by
  obtain ⟨o, hf, _, hw⟩ := u.flush z.output hz.output
  refine ⟨{ z with output := o }, ?_, by simp [store, hw]⟩
  rcases r with e | _
  · simp [Except.mapError, conclude, hf, flushTracer, hz.tracer, settle]
  · simp [Except.mapError, conclude, hf, flushTracer, hz.tracer, settle]

end Execution

namespace Machine
variable {σ : Type} [ByteOutput σ]

theorem stands_start {m : Machine} (hm : m.Remembers) (hlimit : m.config.maxSteps = none)
    (hcancel : m.cancel = none) (htracer : m.tracer = none) (u : ByteOutput.Unfailing σ)
    (input : Source) {output : σ} (ho : u.good output) :
    (m.start input output).Stands m.program m.config.eof u 0
      (.start input (u.written output)) where
  plain := ⟨⟨hm.sound, hm.room⟩, hlimit, hcancel, htracer, Nat.one_pos, ho⟩
  program := rfl
  eof := rfl
  place := .inl rfl
  store := rfl

/-- A run with no step limit, no cancel flag and no tracer, on an output that never fails,
ends if and only if the structured program does, whatever has been run before. Both then
have the same result, and leave the same tape, pointer, input, output and steps. -/
theorem run_iff_runs (u : ByteOutput.Unfailing σ) (p : Program) (c : Config)
    (es : List (Event σ)) (input : Source) (output : σ) (result : Except Fault Unit) (s : Store)
    (hlimit : c.maxSteps = none) (hcancel : ((Machine.new p c).after es).cancel = none)
    (htracer : ((Machine.new p c).after es).tracer = none) (ho : u.good output) :
    (∃ n x, ((Machine.new p c).after es).run n input output = some (x, result) ∧
        x.store u = s) ↔
      ∃ r, Runs c.eof p.structured (.start input (u.written output)) s r ∧
        result = r.mapError Fault.error := by
  have hrec := records_after (m := Machine.new p c) ⟨rfl, JumpMemo.records_empty p⟩ es
  have hconfig := (lasting_config (σ := σ) c).after (m := Machine.new p c) rfl es
  generalize (Machine.new p c).after es = m at *
  have hx := stands_start hrec.remembers (by rw [hconfig]; exact hlimit) hcancel htracer u input ho
  rw [hrec.program, hconfig] at hx
  constructor
  · intro h
    obtain ⟨n, x, hrun, rfl⟩ := h
    unfold run at hrun
    cases ht : (m.start input output).ticks n with
    | running y =>
      rw [ht] at hrun
      cases hrun
    | ended z res =>
      rw [ht] at hrun
      obtain ⟨hz, r, hr, rfl⟩ := Execution.runs_of_ended hx ht
      obtain ⟨w, hw, hs⟩ := Execution.conclude_of_plain hz r
      obtain ⟨rfl, rfl⟩ := Prod.mk.inj (hw.symm.trans (Option.some.inj hrun))
      exact ⟨r, hs ▸ hr, rfl⟩
  · intro h
    obtain ⟨r, hr, rfl⟩ := h
    obtain ⟨n, z, ht, hz, rfl⟩ := Execution.ended_of_runs hx hr
    obtain ⟨w, hw, hs⟩ := Execution.conclude_of_plain hz r
    exact ⟨n, w, by simp [run, ht, hw], hs⟩

/-- One byte is copied, the loop is left at the end of input, and the last bracket has no
partner. -/
theorem runs_copy_then_unmatched :
    Runs .zero (Program.ofList [',', '[', '.', ',', ']', '[']).structured
      (.start (.ofBytes [72]) []) ⟨[0], 0, ⟨[], 1, none, 2, none⟩, [72], 5⟩
      (.error (.unmatchedBracket 5 .opening)) := by
  obtain ⟨r, hr, he⟩ := (run_iff_runs Sink.unfailing
    (Program.ofList [',', '[', '.', ',', ']', '[']) { eof := .zero } [] (.ofBytes [72])
    Sink.unlimited (.error (.error (.unmatchedBracket 5 .opening)))
    ⟨[0], 0, ⟨[], 1, none, 2, none⟩, [72], 5⟩ rfl rfl rfl ⟨rfl, rfl⟩).mp ⟨7, _, rfl, rfl⟩
  cases r with
  | error e => cases he; exact hr
  | ok => cases he

end Machine
end ByteTape
