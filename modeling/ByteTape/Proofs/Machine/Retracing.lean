import ByteTape.Proofs.Machine.LimitedTable
import ByteTape.Proofs.Machine.Strides

/-! The same run under another tracer. Instructions do not see the tracer, so two tracers make a
difference only where one writes a row and the other does not. -/
namespace ByteTape

def Stride.tracedBy {σ : Type} (g : Option Tracer → Option Tracer) (s : Stride σ) : Stride σ :=
  ⟨s.before.tracedBy g, s.instruction, s.after.tracedBy g⟩

namespace Execution
variable {σ : Type} [ByteOutput σ] {x y : Execution σ}

theorem stride?_tracedBy (g : Option Tracer → Option Tracer) (x : Execution σ) :
    (x.tracedBy g).stride? = x.stride?.map (Stride.tracedBy g) := by
  have hdue : (x.tracedBy g).due? = x.due? := rfl
  unfold stride?
  rw [hdue]
  cases x.due? with
  | none => rfl
  | some i =>
    simp only [Option.bind_some, perform_tracedBy]
    rcases x.perform i with ⟨y, e | _⟩ <;> rfl

/-- A tick is the same under another tracer that answers alike. -/
theorem tick_tracedBy {g : Option Tracer → Option Tracer}
    (h : ∀ s, x.stride? = some s → (s.after.tracedBy g).record s.instruction x.snapshot =
      ((s.after.record s.instruction x.snapshot).1.tracedBy g,
        (s.after.record s.instruction x.snapshot).2)) :
    (x.tracedBy g).tick = x.tick.map (tracedBy g) := by
  rw [← tickBy_perform, ← tickBy_perform]
  apply (framed_tracedBy g).tickBy
  intro i hi
  refine ⟨rfl, fun hv => ⟨perform_tracedBy g i x, fun y hp => ?_⟩⟩
  exact h ⟨x, i, y⟩ (stride?_eq_some_iff.mpr ⟨rfl, due?_eq_some_iff.mpr ⟨hv, hi⟩, hp⟩)

section Row
variable {s : Stride σ} {t t' : Tracer}

omit [ByteOutput σ] in
private theorem record_of_row_ok {i : Instruction} {before : Snapshot} (ht : x.tracer = some t)
    (hr : t.row (x.row i before) = (t', .ok ())) :
    x.record i before = ({ x with tracer := some t' }, .ok ()) := by
  simp only [record, ht, hr]

private theorem tracer_of_stride (h : x.stride? = some s) : s.after.tracer = x.tracer := by
  obtain ⟨rfl, _, hp⟩ := stride?_eq_some_iff.mp h
  have hkept := kept_perform s.instruction s.before
  rw [hp] at hkept
  exact hkept.tracer

/-- An instruction whose row is written is counted. -/
theorem tick_of_row_ok (h : x.stride? = some s) (ht : x.tracer = some t)
    (hr : t.row s.row = (t', .ok ())) : x.tick = .running
      { s.after with tracer := some t', steps := s.after.steps + 1, ip := s.after.ip + 1 } := by
  have htracer := (tracer_of_stride h).trans ht
  obtain ⟨rfl, hd, hp⟩ := stride?_eq_some_iff.mp h
  have hrow : t.row (s.after.row s.instruction s.before.snapshot) = (t', .ok ()) := hr
  simp only [tick_of_due hd, executeBy, hp, record, htracer, hrow]

/-- An instruction whose row is not written has been carried out, but the run ends there. -/
theorem tick_of_row_error {e : StreamError} (h : x.stride? = some s) (ht : x.tracer = some t)
    (hr : t.row s.row = (t', .error e)) : x.tick =
      .ended { s.after with tracer := some t' } (.error (.error (.stream x.ip e))) := by
  have htracer := (tracer_of_stride h).trans ht
  obtain ⟨rfl, hd, hp⟩ := stride?_eq_some_iff.mp h
  have hrow : t.row (s.after.row s.instruction s.before.snapshot) = (t', .error e) := hr
  simp only [tick_of_due hd, executeBy, hp, record, htracer, hrow]
  rfl

/-- Without an instruction there is no row. -/
theorem tracer_tick_of_no_stride (h : x.stride? = none) : x.tick.state.tracer = x.tracer := by
  cases hd : x.due? with
  | none => rcases tick_of_idle hd with he | ⟨r, he⟩ <;> rw [he] <;> rfl
  | some i =>
    have hkept := (kept_perform i x).tracer
    rw [tick_of_due hd, executeBy]
    rcases hp : x.perform i with ⟨y, e | _⟩
    · rw [hp] at hkept
      exact hkept
    · rw [stride?_eq_some_iff (s := ⟨x, i, y⟩).mpr ⟨rfl, hd, hp⟩] at h
      cases h

end Row

def rows (moments : List (Execution σ)) : List Trace.Row :=
  (moments.filterMap stride?).map Stride.row

@[simp] theorem rows_append (before after : List (Execution σ)) :
    rows (before ++ after) = rows before ++ rows after := by
  simp [rows]

theorem rows_cons (x : Execution σ) (moments : List (Execution σ)) :
    rows (x :: moments) = rows [x] ++ rows moments :=
  rows_append [x] moments

theorem rows_singleton_of_some {s : Stride σ} (h : x.stride? = some s) : rows [x] = [s.row] := by
  simp [rows, h]

private theorem rows_map_tracedBy (g : Option Tracer → Option Tracer)
    (moments : List (Execution σ)) : rows (moments.map (tracedBy g)) = rows moments := by
  simp only [rows, List.filterMap_map, List.map_filterMap]
  congr 1
  funext x
  simp only [Function.comp_apply, stride?_tracedBy, Option.map_map]
  rfl

def freed (x : Execution σ) : Execution σ := x.tracedBy (Option.map Tracer.freed)

omit [ByteOutput σ] in
theorem signal_freed (x : Execution σ) (w : Option Bool) : x.freed.signal w = (x.signal w).freed :=
  signal_tracedBy _ x w

theorem rows_map_freed (moments : List (Execution σ)) : rows (moments.map freed) = rows moments :=
  rows_map_tracedBy _ moments

/-- If no row is refused, a tick is the same on the freed device. -/
theorem tick_freed_of_row_ok (h : ∀ st t, x.stride? = some st → x.tracer = some t →
    (t.row st.row).2 = .ok ()) : x.freed.tick = x.tick.map freed := by
  apply tick_tracedBy
  intro st hx
  have htracer := tracer_of_stride hx
  cases ht : x.tracer with
  | none =>
    rw [ht] at htracer
    have hfreed : (st.after.tracedBy (Option.map Tracer.freed)).tracer = none :=
      congrArg (Option.map Tracer.freed) htracer
    simp only [record, htracer, hfreed]
  | some t =>
    rw [ht] at htracer
    have hok := h st t hx ht
    have hrow : t.row st.row = ((t.row st.row).1, .ok ()) := Prod.ext rfl hok
    have hfree := Tracer.row_freed hok
    obtain ⟨rfl, _, _⟩ := stride?_eq_some_iff.mp hx
    rw [record_of_row_ok htracer hrow]
    exact record_of_row_ok (congrArg (Option.map Tracer.freed) htracer) hfree

private theorem running_freed (h : x.tick = .running y) : x.freed.tick = .running y.freed := by
  rw [tick_freed_of_row_ok, h]
  · rfl
  · intro st t hx ht
    rcases hr : t.row st.row with ⟨t', e | _⟩
    · rw [tick_of_row_error hx ht hr] at h
      cases h
    · rfl

theorem trail_prefix_freed (x : Execution σ) (ws : List (Option Bool)) :
    (x.trail perform ws).map freed <+: x.freed.trail perform ws :=
  trail_prefix_of_running signal_freed (fun _ _ => running_freed) x ws

end Execution
end ByteTape
