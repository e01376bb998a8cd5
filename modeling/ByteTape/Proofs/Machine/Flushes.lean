import ByteTape.Proofs.Machine.Safety
import ByteTape.Proofs.Machine.Traffic

/-! The flushes of a run. Its output is flushed before each read and once more when the run has
ended, its tracer at that time only, and no failure keeps a later flush from being done. -/
namespace ByteTape

/-- Writing a row flushes nothing. -/
theorem Tracer.flushes_row (t : Tracer) (r : Trace.Row) :
    (t.row r).1.sink.flushes = t.sink.flushes := by
  have hhead : t.head.1.sink.flushes = t.sink.flushes := by
    have hw := t.sink.flushes_write (Trace.lineBytes Trace.header ++ Trace.lineBytes Trace.rule)
    unfold head
    split
    · rfl
    · split
      · rename_i he
        rwa [he] at hw
      · rename_i he
        rwa [he] at hw
  rw [← hhead]
  unfold row
  rcases t.head with ⟨u, e | _⟩
  · rfl
  · exact u.sink.flushes_write _

namespace Execution
variable {σ : Type}

private theorem tracer_record (i : Instruction) (before : Snapshot) (x : Execution σ) :
    (x.record i before).1.tracer.map (·.sink.flushes) = x.tracer.map (·.sink.flushes) := by
  unfold record
  cases ht : x.tracer with
  | none => simp [ht]
  | some t =>
    have hrow := t.flushes_row (x.row i before)
    dsimp only
    split
    · rename_i he
      rw [he] at hrow
      exact congrArg some hrow
    · rename_i he
      rw [he] at hrow
      exact congrArg some hrow

variable [ByteOutput σ] {x : Execution σ}

/-- While a run goes on its tracer is not flushed. -/
theorem tracer_tick (x : Execution σ) :
    x.tick.state.tracer.map (·.sink.flushes) = x.tracer.map (·.sink.flushes) := by
  cases hd : x.due? with
  | none =>
    rcases tick_of_idle hd with he | ⟨r, he⟩ <;> rw [he] <;> rfl
  | some i =>
    have hkept := (kept_perform i x).tracer
    rw [tick_of_due hd, ← hkept]
    rcases x.executeBy_cases perform i with ⟨y, e, hp, he⟩ | ⟨y, t, e, hp, hr, he⟩ |
      ⟨y, t, hp, hr, he⟩
    · rw [he, hp]
      rfl
    · have hrecord := tracer_record i x.snapshot y
      rw [hr] at hrecord
      rw [he, hp]
      exact hrecord
    · have hrecord := tracer_record i x.snapshot y
      rw [hr] at hrecord
      rw [he, hp]
      exact hrecord

private theorem tracer_drive (x : Execution σ) (ws : List (Option Bool)) :
    (x.drive perform ws).state.tracer.map (·.sink.flushes) = x.tracer.map (·.sink.flushes) := by
  induction ws generalizing x with
  | nil => rfl
  | cons w ws ih =>
    have hw : (x.signal w).tracer = x.tracer := by cases w <;> rfl
    have htick := tracer_tick (x.signal w)
    rw [hw] at htick
    simp only [drive, tickBy_perform]
    cases ht : (x.signal w).tick with
    | running y =>
      rw [ht] at htick
      exact (ih y).trans htick
    | ended y result =>
      rw [ht] at htick
      exact htick

private theorem tracer_flushed {t : Option Tracer}
    (h : x.tracer.map (·.sink.flushes) = t.map (·.sink.flushes)) :
    Option.Rel (fun t t' => t'.sink.flushes = t.sink.flushes.push t'.sink.stored.size) t
      x.flushed.tracer := by
  have hflushed : x.flushed.tracer = x.tracer.map fun t => t.flush.1 := rfl
  rw [hflushed]
  cases hx : x.tracer with
  | none =>
    rw [hx, Option.map_none, eq_comm, Option.map_eq_none_iff] at h
    rw [h]
    exact .none
  | some u =>
    rw [hx, Option.map_some, eq_comm, Option.map_eq_some_iff] at h
    obtain ⟨t, rfl, hflushes⟩ := h
    refine .some ?_
    simp [Tracer.flush, Sink.flush, hflushes]

/-- How many bytes were stored at the reads that these moments started. -/
def noted (a : ByteOutput.Account σ) (moments : List (Execution σ)) : List Nat :=
  (moments.filter asks).map fun z => (a.stored z.output).length

end Execution

namespace Machine
open Execution
variable {σ : Type} [ByteOutput σ]

/-- A run flushes its output once for each read that it starts and once more after its last
instruction, however it ends. The flush for a read comes after all that was printed before and
ahead of any attempt to read, so that each attempt finds all stored bytes flushed. The tracer is
flushed once, after the output. Of the errors of the run, the output's last flush and the tracer's
flush the first is the result. -/
theorem flushes_at_reads_and_end (p : Program) (c : Config) (es : List (Event σ))
    (ws : List (Option Bool)) (input : Source) (output : σ) :
    let m := (Machine.new p c).after es
    let start := m.start input output
    (∀ before z behind, start.trail perform ws = before ++ z :: behind →
      (z.attempt? = none → z.tick.state.input = z.input) ∧
      (∀ y, z.attempt? = some y →
        z.asks = true ∧ y.output = (ByteOutput.flush z.output).1 ∧ y.input = z.input ∧
        z.tick.state.input = y.input.read.1) ∧
      (∀ a : ByteOutput.Account σ,
        a.stored z.output = a.stored output ++ before.filterMap printed? ∧
        ∀ y, z.attempt? = some y → a.stored y.output = a.stored z.output) ∧
      ∀ a : ByteOutput.Ledger σ,
        a.notes z.output = a.notes output ++ noted a.toAccount before ∧
        ∀ y, z.attempt? = some y →
          a.notes y.output = a.notes z.output ++ [(a.stored y.output).length]) ∧
    ∀ x result, m.runBy perform ws input output = .ended x result →
      (∀ a : ByteOutput.Ledger σ,
        a.notes x.output = a.notes output ++ noted a.toAccount (start.trail perform ws) ++
          [(a.stored x.output).length]) ∧
      Option.Rel (fun t t' => t'.sink.flushes = t.sink.flushes.push t'.sink.stored.size)
        m.tracer x.tracer ∧
      ∃ (y : Execution σ) (own : Except RunError Unit),
        start.drive perform ws = .ended y (own.mapError .error) ∧
        result = (own *> ((ByteOutput.flush y.output).2 *>
          (y.tracer.map Tracer.flush).elim (.ok ()) Prod.snd).mapError (.stream p.size)).mapError
            .error := by
  intro m start
  constructor
  · intro before z behind hz
    obtain ⟨hnone, hsome⟩ := z.input_tick
    have houtput {y : Execution σ} (hy : z.attempt? = some y) :
        y.output = (ByteOutput.flush z.output).1 := (hsome y hy).2.2
    refine ⟨hnone, ?_, fun a => ⟨?_, ?_⟩, fun a => ⟨?_, ?_⟩⟩
    · intro y hy
      obtain ⟨hread, hinput, hflush⟩ := hsome y hy
      exact ⟨asks_iff.mpr (attempt?_eq_some_iff.mp hy).1, hflush, hinput, hread⟩
    · exact (historic_stored a (a.stored output)).moment (List.append_nil _).symm hz
    · intro y hy
      rw [houtput hy, a.flush]
    · exact (historic_notes a (a.notes output)).moment (List.append_nil _).symm hz
    · intro y hy
      rw [houtput hy, a.notes_flush, a.flush]
  · intro x result hrun
    obtain ⟨y, r, hd, hx⟩ := runBy_eq_ended_iff.mp hrun
    have hm : m.Remembers ∧ m.Inside p :=
      (lasting_inside p).after ⟨remembers_new p c, inside_new p c⟩ es
    obtain ⟨own, rfl, hend⟩ := ended_of_bounded (bounded_start hm input output) hd
    obtain ⟨before, z, hmoments, hz⟩ := exists_last hd
    have htracer := tracer_drive start ws
    rw [hd, Progress.state] at htracer
    rw [conclude_mapError] at hx
    obtain ⟨rfl, hresult⟩ := Prod.mk.inj hx
    refine ⟨?_, ?_, y, own, hd, ?_⟩
    · intro a
      have hnotes := (historic_notes a (a.notes output)).moment (List.append_nil _).symm hmoments
      have hlast := notes_tick a z
      have hstored : a.stored y.flushed.output = a.stored y.output := a.flush y.output
      rw [hz, Progress.state] at hlast
      rw [hstored]
      show a.notes (ByteOutput.flush y.output).1 = _
      rw [a.notes_flush, hlast, hnotes, hmoments]
      cases ha : z.asks <;> simp [noted, ha]
    · exact tracer_flushed htracer
    · rw [← hresult]
      rcases own with e | _
      · rfl
      · rw [hend rfl]

/-- A read at the end of input fails the run. The output is flushed before it and after it, and the
tracer once, though the output's last flush fails as well. -/
theorem flushed_though_exhausted :
    ∃ x, (Machine.new (.ofList ['.', ',']) { trace := true }).runBy perform
        (List.replicate 2 none) (.ofBytes [])
        { Sink.unlimited with flushFaults := [(1, .noSpaceLeft)] } =
          .ended x (.error (.error (.inputExhausted 1))) ∧
      x.output.flushes.toList = [1, 1] ∧ x.tracer.map (·.sink.flushes.size) = some 1 := by
  have hrun := Progress.eq_ended_of_result? (show ((Machine.new (.ofList ['.', ','])
    { trace := true }).runBy perform (List.replicate 2 none) (.ofBytes [])
      { Sink.unlimited with flushFaults := [(1, .noSpaceLeft)] }).result? =
        some (.error (.error (.inputExhausted 1))) by decide +kernel)
  obtain ⟨hnotes, htracer, _⟩ := (flushes_at_reads_and_end (.ofList ['.', ','])
    { trace := true } [] (List.replicate 2 none) (.ofBytes [])
      { Sink.unlimited with flushFaults := [(1, .noSpaceLeft)] }).2 _ _ hrun
  have honce {t : Option Tracer} (h : Option.Rel
      (fun t t' : Tracer => t'.sink.flushes = t.sink.flushes.push t'.sink.stored.size)
        (some (.ofSink .unlimited)) t) : t.map (·.sink.flushes.size) = some 1 := by
    cases h with
    | some h => simp [h, Tracer.ofSink, Sink.unlimited]
  exact ⟨_, hrun, hnotes Sink.ledger, honce htracer⟩

end Machine
end ByteTape
