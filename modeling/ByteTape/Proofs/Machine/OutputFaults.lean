import ByteTape.Proofs.Machine.Rerun
import ByteTape.Proofs.Machine.Safety
import ByteTape.Proofs.Machine.Traffic

/-! Runs on an output that may fail. Such a run is the run on the same output without its faults
until one of them comes, and it is then reported; what has been stored is always a beginning of
what that other run stores. -/
namespace ByteTape

namespace Sink
variable {s : Sink} {b : UInt8} {e : StreamError}

/-- The same device with nothing to hold it up: it takes every byte, and no flush of it fails. -/
def freed (s : Sink) : Sink := { s with capacity := none, flushFaults := [] }

private theorem put_eq_error_iff :
    (ByteOutput.put s b).2 = .error e ↔ s.room = some 0 ∧ e = s.refusal := by
  simp only [ByteOutput.put, write]
  cases hr : s.room with
  | none => simp
  | some room =>
    cases room with
    | zero => simp [eq_comm]
    | succ n => simp

private theorem flush_eq_ok_iff :
    (ByteOutput.flush s).2 = .ok () ↔ s.flushFaults.lookup s.flushes.size = none := by
  simp only [ByteOutput.flush, flush]
  cases s.flushFaults.lookup s.flushes.size <;> simp

private theorem flush_eq_error_iff :
    (ByteOutput.flush s).2 = .error e ↔ s.flushFaults.lookup s.flushes.size = some e := by
  simp only [ByteOutput.flush, flush]
  cases s.flushFaults.lookup s.flushes.size <;> simp

private theorem put_of_ok (h : ∀ e, (ByteOutput.put s b).2 ≠ .error e) :
    s.room ≠ some 0 ∧ ByteOutput.put s b = ({ s with stored := s.stored.push b }, .ok ()) := by
  have hroom : s.room ≠ some 0 := fun hr => h s.refusal (put_eq_error_iff.mpr ⟨hr, rfl⟩)
  refine ⟨hroom, ?_⟩
  simp only [ByteOutput.put, write]
  rcases hr : s.room with _ | _ | room
  · simp
  · exact absurd hr hroom
  · simp

private theorem put_freed (h : ∀ e, (ByteOutput.put s b).2 ≠ .error e) :
    ByteOutput.put s.freed b = ((ByteOutput.put s b).1.freed, (ByteOutput.put s b).2) := by
  rw [(put_of_ok h).2, (put_of_ok (s := s.freed) (by simp [ByteOutput.put, write, room, freed])).2]
  rfl

private theorem flush_freed (s : Sink) :
    ByteOutput.flush s.freed = ((ByteOutput.flush s).1.freed, .ok ()) := rfl

/-- The device `s'` is `s` with `m` bytes more stored and `n` flushes more done. -/
structure After (s : Sink) (m n : Nat) (s' : Sink) : Prop where
  refusal : s'.refusal = s.refusal
  flushFaults : s'.flushFaults = s.flushFaults
  room : s'.room.map (· + m) = s.room
  flushes : s'.flushes.size = s.flushes.size + n

namespace After
variable {s' : Sink} {m n : Nat}

private theorem refl (s : Sink) : s.After 0 0 s := ⟨rfl, rfl, by simp, rfl⟩

private theorem put (h : s.After m n s') (hok : ∀ e, (ByteOutput.put s' b).2 ≠ .error e) :
    s.After (m + 1) n (ByteOutput.put s' b).1 := by
  obtain ⟨hroom, hput⟩ := put_of_ok hok
  rw [hput]
  refine ⟨h.refusal, h.flushFaults, ?_, h.flushes⟩
  rw [← h.room]
  unfold Sink.room at hroom ⊢
  cases hc : s'.capacity with
  | none => rfl
  | some c =>
    simp only [hc, Option.map_some, ne_eq, Option.some.injEq, Array.size_push] at hroom ⊢
    omega

private theorem flush (h : s.After m n s') : s.After m (n + 1) (ByteOutput.flush s').1 :=
  ⟨h.refusal, h.flushFaults, h.room, by simp [ByteOutput.flush, Sink.flush, h.flushes, Nat.add_assoc]⟩

end After
end Sink

namespace Execution
variable {x y z : Execution Sink} {ws : List (Option Bool)}

private theorem perform_freed {i : Instruction} (hd : x.due? = some i)
    (h : ∀ e, ¬ x.Refused e) :
    (x.through Sink.freed).perform i = ((x.perform i).1.through Sink.freed, (x.perform i).2) := by
  apply perform_supervised_of id id id (f := id) (fun _ _ => rfl) (.inr rfl)
  · rintro rfl
    exact Sink.put_freed fun e he => h e (.write hd he)
  · rintro rfl
    rw [Sink.flush_freed]
    rcases hf : (ByteOutput.flush x.output).2 with e | _
    · exact absurd (.flush hd hf) (h e)
    · rfl
  · exact fun _ _ => rfl

private theorem tick_freed (h : ∀ e, ¬ x.Refused e) :
    (x.through Sink.freed).tick = x.tick.map (through Sink.freed) := by
  rw [← tickBy_perform, ← tickBy_perform]
  apply framed_through.tickBy
  intro i hi
  refine ⟨rfl, fun hv => ⟨perform_freed (due?_eq_some_iff.mpr ⟨hv, hi⟩) h, ?_⟩⟩
  intro y _
  exact framed_through.record rfl (fun _ => rfl) i x.snapshot

private theorem signal_through (x : Execution Sink) (w : Option Bool) :
    (x.through Sink.freed).signal w = (x.signal w).through Sink.freed := by
  cases w <;> rfl

/-- A run that the output never fails under is the run on the freed output. -/
private theorem drive_freed (h : ∀ z ∈ x.trail perform ws, ∀ e, ¬ z.Refused e) :
    (x.through Sink.freed).drive perform ws = (x.drive perform ws).map (through Sink.freed) :=
  (drive_of_moments signal_through fun z hz => tick_freed (h z hz)).1

private theorem trail_freed (x : Execution Sink) (ws : List (Option Bool)) :
    (x.trail perform ws).map (through Sink.freed) <+:
      (x.through Sink.freed).trail perform ws := by
  refine trail_prefix_of_running signal_through (fun x y hy => ?_) x ws
  rw [tickBy_perform] at hy ⊢
  rw [tick_freed (not_refused_of_running hy), hy]
  rfl

/-- What a run has stored, the run on the freed output stores as well, if not more. -/
private theorem stored_prefix_freed (x : Execution Sink) (ws ws' : List (Option Bool)) :
    Sink.account.stored (x.drive perform ws).state.output <+:
      Sink.account.stored ((x.through Sink.freed).drive perform (ws ++ ws')).state.output := by
  induction ws generalizing x with
  | nil => exact stored_prefix_drive Sink.account (x.through Sink.freed) ws'
  | cons w ws ih =>
    have hw : (x.signal w).output = x.output := by cases w <;> rfl
    by_cases hr : ∃ e, (x.signal w).Refused e
    · obtain ⟨e, hr⟩ := hr
      obtain ⟨o, ht⟩ := tick_of_refused hr
      have hstored := stored_tick_of_refused Sink.account hr
      rw [ht, Progress.state, hw] at hstored
      have hfree := stored_prefix_drive Sink.account (x.through Sink.freed) (w :: ws ++ ws')
      simp only [drive, tickBy_perform, ht, Progress.state]
      rw [hstored]
      exact hfree
    · have hr : ∀ e, ¬ (x.signal w).Refused e := fun e h => hr ⟨e, h⟩
      simp only [List.cons_append, drive, tickBy_perform, signal_through, tick_freed hr]
      cases ht : (x.signal w).tick with
      | running y => exact ih y
      | ended y result => exact List.prefix_rfl

private theorem after_tick {s : Sink} {past : List (Execution Sink)}
    (h : s.After (past.filterMap printed?).length (past.filter asks).length x.output)
    (hr : ∀ e, ¬ x.Refused e) :
    s.After ((past ++ [x]).filterMap printed?).length ((past ++ [x]).filter asks).length
      x.tick.state.output := by
  rw [List.filterMap_append, List.filter_append, List.length_append, List.length_append]
  rcases x.output_tick with ⟨hd, ho⟩ | ⟨hd, ho⟩ | ⟨hwrite, hread, ho⟩
  · have hprinted : x.printed? = some x.current := if_pos hd
    have hasks : x.asks = false := by simp [asks, hd]
    rw [ho]
    simpa [hprinted, hasks] using h.put fun e he => hr e (.write hd he)
  · have hprinted : x.printed? = none := by simp [printed?, hd]
    have hasks : x.asks = true := asks_iff.mpr hd
    rw [ho]
    simpa [hprinted, hasks] using h.flush
  · have hprinted : x.printed? = none := if_neg hwrite
    have hasks : x.asks = false := by simpa [asks] using hread
    rw [ho]
    simpa [hprinted, hasks] using h

/-- At each moment the device has stored the bytes printed before and done the flushes of the reads
started before. -/
theorem historic_device (s : Sink) : Historic fun past x =>
    s.After (past.filterMap printed?).length (past.filter asks).length x.output where
  signal past x w h := by cases w <;> exact h
  tick past x y h ht := by
    have hy := after_tick h (not_refused_of_running ht)
    rwa [ht] at hy

/-- Where in a run the output fails: at the write that finds no room, and at the flush whose number
is among the faults. -/
theorem refused_iff {before behind : List (Execution Sink)} {e : StreamError}
    (hz : x.trail perform ws = before ++ z :: behind) : z.Refused e ↔
      z.due? = some .write ∧ x.output.room = some (before.filterMap printed?).length ∧
        e = x.output.refusal ∨
      z.due? = some .read ∧
        x.output.flushFaults.lookup (x.output.flushes.size + (before.filter asks).length) =
          some e := by
  have h := (historic_device x.output).moment (.refl _) hz
  have hroom : z.output.room = some 0 ↔
      x.output.room = some (before.filterMap printed?).length := by
    rw [← h.room]
    cases z.output.room <;> simp
  rw [← hroom, ← h.refusal, ← h.flushes, ← h.flushFaults, ← Sink.flush_eq_error_iff]
  constructor
  · rintro (⟨due, failed⟩ | ⟨due, failed⟩)
    · exact .inl ⟨due, Sink.put_eq_error_iff.mp failed⟩
    · exact .inr ⟨due, failed⟩
  · rintro (⟨due, failed⟩ | ⟨due, failed⟩)
    · exact .write due (Sink.put_eq_error_iff.mpr failed)
    · exact .flush due failed

private theorem exists_of_lt_asked {moments : List (Execution Sink)} {k : Nat}
    (h : k < (moments.filter asks).length) :
    ∃ before z behind, moments = before ++ z :: behind ∧ z.asks = true ∧
      (before.filter asks).length = k := by
  rw [← List.filterMap_eq_filter] at h
  obtain ⟨before, z, behind, hz, ha, hk⟩ :=
    exists_of_getElem?_filterMap (List.getElem?_eq_getElem h)
  rw [List.filterMap_eq_filter] at hk
  exact ⟨before, z, behind, hz, by simpa using (Option.guard_eq_some_iff.mp ha).2, hk⟩

private theorem lookup_of_lt_asked {k : Nat} (hr : ∀ z ∈ x.trail perform ws, ∀ e, ¬ z.Refused e)
    (hk : k < ((x.trail perform ws).filter asks).length) :
    x.output.flushFaults.lookup (x.output.flushes.size + k) = none := by
  obtain ⟨before, z, behind, hz, ha, rfl⟩ := exists_of_lt_asked hk
  cases hlookup : x.output.flushFaults.lookup
      (x.output.flushes.size + (before.filter asks).length) with
  | none => rfl
  | some e =>
    exact absurd ((refused_iff hz).mpr (.inr ⟨asks_iff.mp ha, hlookup⟩)) (hr z (by simp [hz]) e)

private theorem after_of_ended {result : Except Fault Unit}
    (hd : x.drive perform ws = .ended y result)
    (hr : ∀ z ∈ x.trail perform ws, ∀ e, ¬ z.Refused e) :
    y.output.stored.toList =
        x.output.stored.toList ++ (x.trail perform ws).filterMap printed? ∧
      x.output.After ((x.trail perform ws).filterMap printed?).length
        ((x.trail perform ws).filter asks).length y.output := by
  refine ⟨stored_of_ended Sink.account hd hr, ?_⟩
  obtain ⟨before, z, hmoments, hz⟩ := exists_last hd
  have hafter := after_tick ((historic_device x.output).moment (.refl _) hmoments)
    (hr z (by simp [hmoments]))
  rw [hz, Progress.state] at hafter
  rwa [hmoments]

end Execution

namespace Machine
open Execution

private theorem runBy_of_refused {σ : Type} [ByteOutput σ] {m : Machine} {ws : List (Option Bool)}
    {input : Source} {output : σ} {z : Execution σ} {e : StreamError}
    (hz : z ∈ (m.start input output).trail perform ws) (h : z.Refused e) :
    m.runBy perform ws input output =
      .ended (z.heedOutput z.tick.state.output).flushed
        (.error (.error (.stream z.ip e))) := by
  obtain ⟨o, ht⟩ := tick_of_refused h
  rw [ht]
  exact runBy_of_failed hz ht

/-- A result without an error takes a last flush without one. -/
theorem flush_of_conclude_ok {σ : Type} [ByteOutput σ] {y : Execution σ}
    {own : Except RunError Unit} (h : (y.conclude (own.mapError .error)).2 = .ok ()) :
    (ByteOutput.flush y.output).2 = .ok () := by
  rw [conclude_mapError] at h
  rcases hf : (ByteOutput.flush y.output).2 with e | _
  · rw [hf] at h
    rcases own with f | _ <;> cases h
  · rfl

private theorem stored_runBy {σ : Type} [ByteOutput σ] (a : ByteOutput.Account σ) (m : Machine)
    (ws : List (Option Bool)) (input : Source) (output : σ) :
    a.stored (m.runBy perform ws input output).state.output =
      a.stored ((m.start input output).drive perform ws).state.output := by
  unfold runBy
  cases (m.start input output).drive perform ws with
  | running x => rfl
  | ended x result => exact stored_conclude a x result

private theorem conclude_freed {y : Execution Sink} (own : Except RunError Unit)
    (h : (ByteOutput.flush y.output).2 = .ok ()) :
    (y.through Sink.freed).conclude (own.mapError .error) =
      ((y.conclude (own.mapError .error)).1.through Sink.freed,
        (y.conclude (own.mapError .error)).2) := by
  rw [conclude_mapError, conclude_mapError, h]
  rfl

section Ending
variable {m : Machine} {ws : List (Option Bool)} {input : Source} {output : Sink}

/-- A moment at which the output fails is the last one, and the run leaves it with nothing stored
since, nothing read and the tape as it was. -/
private theorem refused_ends_run {before behind : List (Execution Sink)} {z : Execution Sink}
    {e : StreamError} (hz : (m.start input output).trail perform ws = before ++ z :: behind)
    (h : z.Refused e) : behind = [] ∧ ∃ x,
      m.runBy perform ws input output = .ended x (.error (.error (.stream z.ip e))) ∧
      x.output.stored.toList = output.stored.toList ++ before.filterMap printed? ∧
      x.input = z.input ∧ x.tape = z.tape ∧ x.pointer = z.pointer := by
  obtain ⟨o, ht⟩ := tick_of_refused h
  have hmem : z ∈ (m.start input output).trail perform ws := by simp [hz]
  refine ⟨last_of_ended hz ht, _, runBy_of_refused hmem h, ?_, rfl, rfl, rfl⟩
  have hstored := (historic_stored Sink.account output.stored.toList).moment
    (List.append_nil _).symm hz
  exact (stored_tick_of_refused Sink.account h).trans hstored

/-- A run that the output fails under at no moment ends as the run on the freed output does, unless
the last flush fails. Then it is this that the run fails with, if it has not failed itself. -/
private theorem last_flush_of_run {p : Program} (hm : m.Remembers ∧ m.Inside p) {y : Execution Sink}
    {own : Except Fault Unit} (hd : (m.start input output).drive perform ws = .ended y own)
    (hr : ∀ z ∈ (m.start input output).trail perform ws, ∀ e, ¬ z.Refused e) :
    (m.start input output.freed).drive perform ws = .ended (y.through Sink.freed) own ∧
    match output.flushFaults.lookup (output.flushes.size +
      (((m.start input output).trail perform ws).filter asks).length) with
    | none => ∃ x result, m.runBy perform ws input output = .ended x result ∧
        m.runBy perform ws input output.freed = .ended (x.through Sink.freed) result
    | some e => ∃ x, m.runBy perform ws input output =
        .ended x (own *> .error (.error (.stream p.size e))) := by
  have hfree : (m.start input output.freed).drive perform ws =
      .ended (y.through Sink.freed) own := by
    have h := drive_freed hr
    rwa [hd] at h
  obtain ⟨_, hafter⟩ := after_of_ended hd hr
  obtain ⟨own, rfl, hip⟩ := ended_of_bounded (bounded_start hm input output) hd
  refine ⟨hfree, ?_⟩
  have hflushes : output.flushes.size + _ = y.output.flushes.size := hafter.flushes.symm
  have hfaults : output.flushFaults = y.output.flushFaults := hafter.flushFaults.symm
  rw [hflushes, hfaults]
  cases hlookup : y.output.flushFaults.lookup y.output.flushes.size with
  | none =>
    have hflush := Sink.flush_eq_ok_iff.mpr hlookup
    refine ⟨_, _, runBy_eq_ended_iff.mpr ⟨y, _, hd, rfl⟩, ?_⟩
    exact runBy_eq_ended_iff.mpr ⟨_, _, hfree, conclude_freed own hflush⟩
  | some e =>
    have hflush := Sink.flush_eq_error_iff.mpr hlookup
    refine ⟨y.flushed, runBy_eq_ended_iff.mpr ⟨y, _, hd, ?_⟩⟩
    rw [conclude_mapError, hflush]
    rcases own with f | _
    · rfl
    · rw [← hip rfl]
      rfl

/-- A run that ends well has stored all that was printed, and none of its flushes is among the
faults. -/
private theorem faultless_of_ok {p : Program} (hm : m.Remembers ∧ m.Inside p) {x : Execution Sink}
    (hrun : m.runBy perform ws input output = .ended x (.ok ())) :
    let moments := (m.start input output).trail perform ws
    x.output.stored.toList = output.stored.toList ++ moments.filterMap printed? ∧
    x.output.flushes.size = output.flushes.size + (moments.filter asks).length + 1 ∧
    ∀ k ≤ (moments.filter asks).length,
      output.flushFaults.lookup (output.flushes.size + k) = none := by
  intro moments
  obtain ⟨y, r, hd, hx⟩ := runBy_eq_ended_iff.mp hrun
  obtain ⟨own, rfl, _⟩ := ended_of_bounded (bounded_start hm input output) hd
  have hr : ∀ z ∈ moments, ∀ e, ¬ z.Refused e := by
    intro z hz e hr
    rw [runBy_of_refused hz hr] at hrun
    cases hrun
  obtain ⟨hstored, hafter⟩ := after_of_ended hd hr
  have hflush := flush_of_conclude_ok (congrArg Prod.snd hx)
  rw [conclude_mapError] at hx
  obtain ⟨rfl, _⟩ := Prod.mk.inj hx
  refine ⟨hstored, hafter.flush.flushes, ?_⟩
  intro k hk
  rcases hk.lt_or_eq with hlt | rfl
  · exact lookup_of_lt_asked hr hlt
  · have hlookup : y.output.flushFaults.lookup y.output.flushes.size = none :=
      Sink.flush_eq_ok_iff.mp hflush
    rwa [hafter.flushFaults, hafter.flushes] at hlookup

end Ending

/-- A run on an output that may fail, beside the run on the same output without its faults. They go
through the same moments until the output fails, which it does at the write that finds no room or
at a flush among the faults. The run then ends with that failure, nothing but the attempt having
been done. If only the last flush fails, the run's own error stands if it had one. A run that ends
well has stored all that was printed, and no flush of it has failed; and any run has stored a
beginning of what the other stores. -/
theorem output_fault_ends_run (p : Program) (c : Config) (es : List (Event Sink))
    (ws : List (Option Bool)) (input : Source) (output : Sink) :
    let m := (Machine.new p c).after es
    let start := m.start input output
    let free := m.start input output.freed
    let moments := start.trail perform ws
    let asked := (moments.filter asks).length
    output.freed.Sturdy ∧
    moments.map (through Sink.freed) <+: free.trail perform ws ∧
    (∀ x, start.drive perform ws = .running x →
      free.drive perform ws = .running (x.through Sink.freed)) ∧
    (∀ before z behind e, moments = before ++ z :: behind →
      (z.Refused e ↔
        z.due? = some .write ∧ output.room = some (before.filterMap printed?).length ∧
          e = output.refusal ∨
        z.due? = some .read ∧
          output.flushFaults.lookup (output.flushes.size + (before.filter asks).length) =
            some e) ∧
      (z.Refused e → behind = [] ∧ ∃ x,
        m.runBy perform ws input output = .ended x (.error (.error (.stream z.ip e))) ∧
        x.output.stored.toList = output.stored.toList ++ before.filterMap printed? ∧
        x.input = z.input ∧ x.tape = z.tape ∧ x.pointer = z.pointer)) ∧
    (∀ y own, start.drive perform ws = .ended y own → (∀ z ∈ moments, ∀ e, ¬ z.Refused e) →
      free.drive perform ws = .ended (y.through Sink.freed) own ∧
      match output.flushFaults.lookup (output.flushes.size + asked) with
      | none => ∃ x result, m.runBy perform ws input output = .ended x result ∧
          m.runBy perform ws input output.freed = .ended (x.through Sink.freed) result
      | some e => ∃ x, m.runBy perform ws input output =
          .ended x (own *> .error (.error (.stream p.size e)))) ∧
    (∀ x, m.runBy perform ws input output = .ended x (.ok ()) →
      x.output.stored.toList = output.stored.toList ++ moments.filterMap printed? ∧
      x.output.flushes.size = output.flushes.size + asked + 1 ∧
      ∀ k ≤ asked, output.flushFaults.lookup (output.flushes.size + k) = none) ∧
    ∀ ws', (m.runBy perform ws input output).state.output.stored.toList <+:
      (m.runBy perform (ws ++ ws') input output.freed).state.output.stored.toList := by
  intro m start free moments asked
  have hm : m.Remembers ∧ m.Inside p :=
    (lasting_inside p).after ⟨remembers_new p c, inside_new p c⟩ es
  refine ⟨⟨rfl, rfl⟩, start.trail_freed ws, ?_, ?_, ?_, fun x => faultless_of_ok hm, ?_⟩
  · intro x hx
    have hquiet : ∀ z ∈ moments, ∀ e, ¬ z.Refused e := by
      intro z hz e hr
      have hresult := result?_of_refused hz hr
      rw [hx] at hresult
      cases hresult
    have hfree := drive_freed hquiet
    rw [hx] at hfree
    exact hfree
  · exact fun before z behind e hz => ⟨refused_iff hz, refused_ends_run hz⟩
  · exact fun y own => last_flush_of_run hm
  · intro ws'
    have hprefix : Sink.account.stored (start.drive perform ws).state.output <+:
        Sink.account.stored (free.drive perform (ws ++ ws')).state.output :=
      start.stored_prefix_freed ws ws'
    rwa [← stored_runBy, ← stored_runBy] at hprefix

/-- A device with room for one byte refuses the second write. One whose first flush fails makes the
run fail when nothing is left of the program. -/
theorem second_byte_refused :
    (∃ x, (Machine.new (.ofList ['+', '.', '.']) {}).runBy perform (List.replicate 4 none)
        (.ofBytes []) { Sink.full with capacity := some 1 } =
          .ended x (.error (.error (.stream 2 .noSpaceLeft))) ∧
      x.output.stored.toList = [1]) ∧
    ∃ x, (Machine.new (.ofList ['+', '.', '.']) {}).runBy perform (List.replicate 4 none)
        (.ofBytes []) { Sink.unlimited with flushFaults := [(0, .noSpaceLeft)] } =
          .ended x (.error (.error (.stream 3 .noSpaceLeft))) := by
  obtain ⟨_, _, _, hrefused, _⟩ := output_fault_ends_run (.ofList ['+', '.', '.']) {} []
    (List.replicate 4 none) (.ofBytes []) { Sink.full with capacity := some 1 }
  obtain ⟨_, _, _, _, hlast, _⟩ := output_fault_ends_run (.ofList ['+', '.', '.']) {} []
    (List.replicate 4 none) (.ofBytes []) { Sink.unlimited with flushFaults := [(0, .noSpaceLeft)] }
  constructor
  · obtain ⟨hiff, hend⟩ := hrefused [_, _] _ [] .noSpaceLeft rfl
    obtain ⟨_, x, hrun, hstored, _⟩ := hend (hiff.mpr (.inl ⟨rfl, rfl, rfl⟩))
    exact ⟨x, hrun, hstored⟩
  · refine (hlast _ (.ok ()) rfl fun z hz e hr => ?_).2
    cases result?_of_refused hz hr

end Machine
end ByteTape
