import ByteTape.Proofs.Machine.Retracing
import ByteTape.Proofs.Machine.Untraced

/-! Runs under a tracer that has no room left. They go on without it until an instruction has a row
to be written. -/
namespace ByteTape

/-- The tracer has no room left. What it has stored, and how it refuses a write, are as on `s`. -/
def Machine.Spent (s : Sink) (m : Machine) : Prop :=
  ∃ t, m.tracer = some t ∧ t.sink.room = some 0 ∧ t.sink.stored = s.stored ∧
    t.sink.refusal = s.refusal

namespace Execution
variable {σ : Type} [ByteOutput σ] {x y : Execution σ} {s : Sink}

/-- On a full table the first instruction that does not fail ends the run. -/
private theorem tick_of_spent (h : x.Spent s) {st : Stride σ} (hx : x.stride? = some st) :
    x.tick = .ended { st.after with tracer := x.tracer }
      (.error (.error (.stream x.ip s.refusal))) := by
  obtain ⟨t, ht, hroom, _, hrefusal⟩ := h
  rw [← hrefusal, ht]
  exact tick_of_row_error hx ht (Tracer.row_of_full hroom _)

private theorem spent_tick (h : x.Spent s) : x.tick.state.Spent s := by
  have htracer : x.tick.state.tracer = x.tracer := by
    cases hx : x.stride? with
    | none => exact tracer_tick_of_no_stride hx
    | some st => rw [tick_of_spent h hx]; rfl
  rwa [Machine.Spent, htracer]

private theorem tick_untraced_of_no_stride (hx : x.stride? = none) :
    x.untraced.tick = x.tick.map untraced :=
  tick_tracedBy (g := fun _ => none) fun st hst => by rw [hst] at hx; cases hx

/-- A run on a full table stores nothing there. It is the run without a tracer up to the first
instruction that does not fail, which ends it. -/
private theorem drive_of_spent (h : x.Spent s) (ws : List (Option Bool)) :
    (x.drive perform ws).state.Spent s ∧
    match ((x.untraced.trail perform ws).filterMap stride?).head? with
    | none => x.untraced.drive perform ws = (x.drive perform ws).map untraced
    | some st => ∃ y, x.drive perform ws =
        .ended y (.error (.error (.stream st.before.ip s.refusal))) := by
  induction ws generalizing x with
  | nil => exact ⟨h, rfl⟩
  | cons w ws ih =>
    have hw : (x.signal w).Spent s := by cases w <;> exact h
    have hsignal : x.untraced.signal w = (x.signal w).untraced := by cases w <;> rfl
    have hstride : (x.signal w).untraced.stride? =
        (x.signal w).stride?.map (Stride.tracedBy fun _ => none) :=
      stride?_tracedBy (fun _ => none) (x.signal w)
    have htick := spent_tick hw
    simp only [drive, trail, tickBy_perform, hsignal]
    cases hx : (x.signal w).stride? with
    | none =>
      rw [hx, Option.map_none] at hstride
      rw [List.filterMap_cons_none hstride, tick_untraced_of_no_stride hx]
      cases ht : (x.signal w).tick with
      | running y =>
        rw [ht] at htick
        exact ih htick
      | ended y result =>
        rw [ht] at htick
        exact ⟨htick, rfl⟩
    | some st =>
      rw [hx, Option.map_some] at hstride
      rw [List.filterMap_cons_some hstride]
      have he := tick_of_spent hw hx
      rw [he] at htick ⊢
      have hip : (st.tracedBy fun _ => none).before.ip = (x.signal w).ip :=
        congrArg (·.ip) (stride?_eq_some_iff.mp hx).1
      refine ⟨htick, { st.after with tracer := (x.signal w).tracer }, ?_⟩
      rw [hip]

private theorem spent_conclude (h : x.Spent s) (result : Except Fault Unit) :
    (x.conclude result).1.Spent s := by
  have hflushed : x.flushed.Spent s := by
    obtain ⟨t, ht, hrest⟩ := h
    exact ⟨t.flush.1, by simp [flushed, ht], hrest⟩
  rcases result with (e | e) | _
  · rw [x.conclude_error e]
    exact hflushed
  · exact h
  · rw [show x.conclude (.ok ()) = _ from x.conclude_mapError (.ok ())]
    exact hflushed

end Execution

namespace Machine
open Execution
variable {σ : Type} [ByteOutput σ] {m : Machine} {s : Sink}

/-- A run under a full table. -/
theorem Spent.runBy (h : m.Spent s) (ws : List (Option Bool)) (input : Source) (output : σ) :
    (m.runBy perform ws input output).state.Spent s ∧
    match (((m.untraced.start input output).trail perform ws).filterMap stride?).head? with
    | none => (m.untraced.start input output).drive perform ws =
        ((m.start input output).drive perform ws).map Execution.untraced
    | some st => ∃ x, m.runBy perform ws input output =
        .ended x (.error (.error (.stream st.before.ip s.refusal))) := by
  have hstart : (m.start input output).Spent s := h
  have huntraced : m.untraced.start input output = (m.start input output).untraced := rfl
  obtain ⟨hspent, hrun⟩ := drive_of_spent hstart ws
  rw [huntraced]
  constructor
  · unfold Machine.runBy
    cases hd : (m.start input output).drive perform ws with
    | running x =>
      rw [hd] at hspent
      exact hspent
    | ended x result =>
      rw [hd] at hspent
      exact spent_conclude hspent result
  · split at hrun
    · exact hrun
    · obtain ⟨y, hd⟩ := hrun
      exact ⟨y.flushed, runBy_eq_ended_iff.mpr ⟨y, _, hd, y.conclude_error _⟩⟩

theorem Spent.after (h : m.Spent s) {es : List (Event σ)} (hes : KeepsTracer es) :
    (m.after es).Spent s := by
  induction es generalizing m with
  | nil => exact h
  | cons e es ih =>
    have hrest : KeepsTracer es := fun e' he' => hes e' (List.mem_cons_of_mem _ he')
    cases e with
    | flag value => exact ih (m := { m with cancel := some value }) h hrest
    | tracer t => exact absurd rfl (hes _ List.mem_cons_self t)
    | run ws input output =>
      have hrun := (h.runBy ws input output).1
      simp only [Machine.after]
      cases hr : m.runBy perform ws input output with
      | running x =>
        rw [hr] at hrun
        exact hrun
      | ended x result =>
        rw [hr] at hrun
        exact ih hrun hrest

end Machine
end ByteTape
