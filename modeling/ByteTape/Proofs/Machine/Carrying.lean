import ByteTape.Proofs.Machine.Moments

/-! Maps of states that take runs to runs. They change what a run carries along but does not
depend on, and so the run after the map is the run before it, seen through the map. -/
namespace ByteTape

def Progress.map {σ τ : Type} (f : Execution σ → Execution τ) : Progress σ → Progress τ
  | .running x => .running (f x)
  | .ended x result => .ended (f x) result

namespace Execution
variable {σ τ : Type} {act : Performer σ} {act' : Performer τ} {Q : Execution σ → Prop}
  {f : Execution σ → Execution τ} {x : Execution σ}

/-- A map of states that keeps what a tick itself looks at, and gives way to what it does
itself. -/
structure Framed (f : Execution σ → Execution τ) : Prop where
  char : ∀ x, (f x).program.get? (f x).ip = x.program.get? x.ip
  snapshot : ∀ x, (f x).snapshot = x.snapshot
  row : ∀ x i before, (f x).row i before = x.row i before
  pass : ∀ x, { f x with ip := (f x).ip + 1 } = f { x with ip := x.ip + 1 }
  count : ∀ x, { f x with steps := (f x).steps + 1, ip := (f x).ip + 1 } =
    f { x with steps := x.steps + 1, ip := x.ip + 1 }

/-- From alike states such a map takes an instruction that is recorded and counted to one, if it
takes the instruction and its row to theirs. -/
theorem Framed.executeBy (hf : Framed f) {x' : Execution τ} {i : Instruction}
    (hs : x'.snapshot = x.snapshot) (hact : act' i x' = (f (act i x).1, (act i x).2))
    (hrecord : ∀ y, act i x = (y, .ok ()) → (f y).record i x.snapshot =
      (f (y.record i x.snapshot).1, (y.record i x.snapshot).2)) :
    x'.executeBy act' i = (x.executeBy act i).map f := by
  simp only [Execution.executeBy, hact, hs]
  rcases ha : act i x with ⟨y, e | _⟩
  · rfl
  · simp only [hrecord y ha]
    rcases y.record i x.snapshot with ⟨z, e | _⟩
    · rfl
    · simp only [hf.count, Progress.map]

/-- Such a map takes a tick to a tick if it takes the instruction and its row to theirs. -/
theorem Framed.tickBy (hf : Framed f)
    (hi : ∀ i : Instruction, x.program.get? x.ip = some i.symbol → (f x).veto = x.veto ∧
      (x.veto = none → act' i (f x) = (f (act i x).1, (act i x).2) ∧
        ∀ y, act i x = (y, .ok ()) → (f y).record i x.snapshot =
          (f (y.record i x.snapshot).1, (y.record i x.snapshot).2))) :
    (f x).tickBy act' = (x.tickBy act).map f := by
  have hc := hf.char x
  rcases x.tickBy_cases act with ⟨hx, he⟩ | ⟨c, hx, hcomment, he⟩ | ⟨i, e, hx, hv, he⟩ |
    ⟨i, hx, hv, he⟩
  · rw [hx] at hc
    rw [he]
    simp [Execution.tickBy, hc, Progress.map]
  · rw [hx] at hc
    rw [he]
    simp [Execution.tickBy, hc, hcomment, Progress.map, hf.pass]
  · have hv' := (hi i hx).1.trans hv
    rw [hx] at hc
    rw [he]
    simp [Execution.tickBy, hc, hv', Progress.map]
  · obtain ⟨hv', hrest⟩ := hi i hx
    obtain ⟨hact, hrecord⟩ := hrest hv
    rw [hv] at hv'
    rw [hx] at hc
    rw [he, ← hf.executeBy (hf.snapshot x) hact hrecord]
    simp [Execution.tickBy, hc, hv']

theorem Framed.rowBy? (hf : Framed f)
    (hi : ∀ i : Instruction, x.program.get? x.ip = some i.symbol → (f x).veto = x.veto ∧
      (x.veto = none → act' i (f x) = (f (act i x).1, (act i x).2))) :
    (f x).rowBy? act' = x.rowBy? act := by
  have hc := hf.char x
  cases hx : x.program.get? x.ip with
  | none =>
    rw [hx] at hc
    simp [Execution.rowBy?, hc, hx]
  | some c =>
    rw [hx] at hc
    cases hcomment : Instruction.ofChar? c with
    | none => simp [Execution.rowBy?, hc, hx, hcomment]
    | some i =>
      obtain rfl := Instruction.ofChar?_eq_some_iff.mp hcomment
      obtain ⟨hv, hact⟩ := hi i hx
      cases he : x.veto with
      | some e =>
        rw [he] at hv
        simp [Execution.rowBy?, hv, he]
      | none =>
        rw [he] at hv
        simp only [Execution.rowBy?, hv, he, hc, hx, Option.bind_some, hcomment, hact he,
          hf.snapshot]
        rcases act i x with ⟨y, e | _⟩
        · rfl
        · simp only [hf.row]

/-- The row is recorded alike if the map keeps the tracer. -/
theorem Framed.record (hf : Framed f) (ht : (f x).tracer = x.tracer)
    (hset : ∀ t, { f x with tracer := t } = f { x with tracer := t }) (i : Instruction)
    (before : Snapshot) :
    (f x).record i before = (f (x.record i before).1, (x.record i before).2) := by
  simp only [Execution.record, ht, hf.row]
  cases x.tracer with
  | none => rfl
  | some t =>
    rcases hw : t.row (x.row i before) with ⟨t', e | _⟩ <;> simp only [hw, hset]

/-- The last flushes are the same if the map keeps the output and the tracer. -/
theorem conclude_map [ByteOutput σ] {f : Execution σ → Execution σ}
    (hip : ∀ x, (f x).ip = x.ip) (ho : ∀ x, (f x).output = x.output)
    (ht : ∀ x, (f x).tracer = x.tracer)
    (houtput : ∀ x o, { f x with output := o } = f { x with output := o })
    (htracer : ∀ x t, { f x with tracer := t } = f { x with tracer := t })
    (x : Execution σ) (result : Except Fault Unit) :
    (f x).conclude result = (f (x.conclude result).1, (x.conclude result).2) := by
  have hflush (y : Execution σ) : (f y).flushTracer = (f y.flushTracer.1, y.flushTracer.2) := by
    simp only [flushTracer, ht]
    cases y.tracer with
    | none => rfl
    | some t => simp only [htracer]
  rcases result with (e | e) | _
  · simp only [conclude, ho, houtput, hflush, hip]
  · rfl
  · simp only [conclude, ho, houtput, hflush, hip]

/-- A map that takes the tick from each moment of a run takes the run. -/
theorem drive_of_moments (hsignal : ∀ x w, (f x).signal w = f (x.signal w))
    {ws : List (Option Bool)}
    (h : ∀ z ∈ x.trail act ws, (f z).tickBy act' = (z.tickBy act).map f) :
    (f x).drive act' ws = (x.drive act ws).map f ∧
      (f x).trail act' ws = (x.trail act ws).map f := by
  induction ws generalizing x with
  | nil => exact ⟨rfl, rfl⟩
  | cons w ws ih =>
    simp only [Execution.trail, List.mem_cons, forall_eq_or_imp] at h
    simp only [Execution.drive, Execution.trail, hsignal, h.1, List.map_cons]
    cases ht : (x.signal w).tickBy act with
    | running y =>
      rw [ht] at h
      obtain ⟨hdrive, htrail⟩ := ih h.2
      exact ⟨hdrive, congrArg _ htrail⟩
    | ended y result => exact ⟨rfl, rfl⟩

/-- Where `Q` holds, `f` takes each tick by `act` to a tick by `act'`. -/
structure Carries (act : Performer σ) (act' : Performer τ) (Q : Execution σ → Prop)
    (f : Execution σ → Execution τ) : Prop where
  steady : Steady act Q
  signal : ∀ x w, (f x).signal w = f (x.signal w)
  tick : ∀ x, Q x → (f x).tickBy act' = (x.tickBy act).map f

section Carries
variable (hf : Carries act act' Q f) (h : Q x) (ws : List (Option Bool))
include hf h

theorem Carries.drive : (f x).drive act' ws = (x.drive act ws).map f :=
  (drive_of_moments hf.signal fun z hz => hf.tick z (hf.steady.trail h ws z hz)).1

theorem Carries.trail : (f x).trail act' ws = (x.trail act ws).map f :=
  (drive_of_moments hf.signal fun z hz => hf.tick z (hf.steady.trail h ws z hz)).2

end Carries

/-- A map that takes the ticks that a run outlasts takes its moments to the first moments of the
other run. -/
theorem trail_prefix_of_running (hsignal : ∀ x w, (f x).signal w = f (x.signal w))
    (h : ∀ x y, x.tickBy act = .running y → (f x).tickBy act' = .running (f y))
    (x : Execution σ) (ws : List (Option Bool)) :
    (x.trail act ws).map f <+: (f x).trail act' ws := by
  induction ws generalizing x with
  | nil => exact List.prefix_rfl
  | cons w ws ih =>
    simp only [Execution.trail, List.map_cons, hsignal]
    refine (List.prefix_cons_inj _).mpr ?_
    cases ht : (x.signal w).tickBy act with
    | running y =>
      rw [h _ y ht]
      exact ih y
    | ended y result => exact List.nil_prefix

end Execution
end ByteTape
